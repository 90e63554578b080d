import MappedQuery.Cursor.Basic
import MappedQuery.Query.Normal
import MappedQuery.Sql.Session

/-!
# Roots

`Mapping.openRoot` answers the selection of a root field with a cursor and with what is left to
do of the query below the field. A root over a document looks at the document and leaves the
whole query; a root over tables sends the statement of a plan and leaves what the plan could not
say.
-/
namespace MappedQuery

namespace Registry

variable {φ ρ μ : Type} [SourceField φ]

/-- The data of a root field: mapped on a type, else on the query type. -/
def openData? (r : Registry φ ρ μ) (type field : String) : Option ρ :=
  (r.rootData? [] type field).or (r.rootData? [] r.schema.queryType field)

end Registry

namespace Mapping

/-- The type of a root field; without one the field is unknown to the type. -/
def openType (m : Mapping) (type field : String) : Except Fault TypeRef :=
  match m.rootFieldType? type field with
  | some t => .ok t
  | none => .error (.unknownField field type)

/-- Opens a root field that is declared on a type, the query type or the type of a delegated
field. -/
def openRoot (m : Mapping) (type : String) (s : Select) : Run (Query × Cursor) :=
  match m with
  | documents r =>
    match r.openData? type s.name with
    | none => throw (.missingRootMapping s.name)
    | some json => do
      let fieldType ← Run.ofExcept (m.openType type s.name)
      pure (s.child, ⟨[s.name], fieldType, .document r json⟩)
  | tables r =>
    match r.openData? type s.name with
    | none => throw (.missingRootMapping s.name)
    | some () => do
      let fieldType ← Run.ofExcept (m.openType type s.name)
      let plan ← Run.ofExcept (Sql.Plan.build r s.name fieldType s.child)
      let result ← Run.send s.toQuery.normalize plan.fields plan.statement
      let group : Sql.RowGroup := ⟨plan.nodes, 0, result.rows⟩
      pure (plan.residual, ⟨[s.name], fieldType, .table r (.rows group)⟩)

end Mapping

end MappedQuery
