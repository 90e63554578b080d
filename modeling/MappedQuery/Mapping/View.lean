import MappedQuery.Problem.Fault
import MappedQuery.Json.Basic

/-!
# Views of an object

Computed fields and the joins of delegated fields read the object they belong to through an
`ObjectView`: its place, its types, and its fields and attributes by name. A view says nothing
about where the object's data come from.
-/
namespace MappedQuery

/-- What can be read of one object. -/
structure ObjectView where
  /-- The fields followed from the root to the object. -/
  path : List String
  type : TypeRef
  /-- The object type; differs from the declared type for interfaces and unions. -/
  concreteType : Except Fault String
  hasField : String → Bool
  /-- The value of a leaf field. -/
  leaf : String → Except Fault Value
  /-- The value of a leaf field that may be null. -/
  nullableLeaf : String → Except Fault (Option Value)
  /-- How many elements a field has. -/
  count : String → Except Fault Nat
  hasAttribute : String → Bool
  attributeValue : String → Except Fault Value
  /-- Whether the object is of a type. -/
  narrowsTo : String → Bool

/-- A value computed from an object. -/
abbrev Computation : Type := ObjectView → Except Fault Value

/-- Turns an object and the selection of a delegated field into the query that the other mapping
runs. -/
abbrev JoinRule : Type := ObjectView → Query → Except Fault Query

/-- Writes the leaf values of one type. -/
abbrev Encoder : Type := Value → Except Fault Json

/-- Replaces the selection of one field of one type. -/
abbrev Elaborator : Type := Select → Except Fault Query

end MappedQuery
