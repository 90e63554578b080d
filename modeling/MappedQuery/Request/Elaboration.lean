import MappedQuery.Mapping.Registry
import MappedQuery.Problem.Outcome
import MappedQuery.Request.Arguments

/-!
# Elaboration

Elaboration checks a query against the schema of its mapping, binds the arguments of its
selections, drops fragments on the type they stand on, and lets the elaborators of the mapping
replace selections. Below a delegated field the other mapping counts. A selection that fails is
reported and left out; its siblings are elaborated all the same.
-/
namespace MappedQuery

namespace Mapping

/-- The elaborator of a field: of the mapping itself, else of the mapping that the field is
delegated to, there on the type or on the query type. -/
def fieldElaborator? (m : Mapping) (target? : Option Mapping) (type field : String) :
    Option Elaborator :=
  (m.elaborator? type field).or <|
    target?.bind fun target =>
      (target.elaborator? type field).or (target.elaborator? target.schema.queryType field)

end Mapping

namespace Query

/-- A selection that is reported and left out. -/
def dropped (f : Fault) : Outcome Query := .attach .empty [f.toProblem]

/-- The selection as the elaborator of its field has it. -/
def applyElaborator (elaborator? : Option Elaborator) (s : Select) : Outcome Query :=
  match elaborator? with
  | none => .success s.toQuery
  | some elaborator =>
    match elaborator s with
    | .ok q => .success q
    | .error f => dropped f

mutual

/-- Elaborates a query on a type, reached through a path. -/
def elaborate (m : Mapping) (type : String) (path : List String) : Query → Outcome Query
  | .select name alias? bindings child =>
    if name = "__typename" then
      if child.isEmpty then .success (.select name alias? bindings child)
      else dropped (.elaboration .typenameWithSelections)
    else
      match m.schema.field? type name with
      | none => dropped (.unknownField name type)
      | some f =>
        match f.bindArguments m.schema bindings with
        | .error cause => dropped (.elaboration (.arguments cause name type))
        | .ok bindings =>
          let childType := f.type.underlying
          match m.schema.isLeaf childType, child.isEmpty with
          | true, false => dropped (.elaboration (.leafWithSelections name type))
          | false, true => dropped (.elaboration (.objectWithoutSelections name type))
          | _, _ =>
            let target? := m.delegateTarget? path type name
            let below :=
              match target? with
              | some target => elaborate target childType [name] child
              | none => elaborate m childType (path ++ [name]) child
            below.andThen fun child =>
              applyElaborator (m.fieldElaborator? target? type name)
                ⟨name, alias?, bindings, child⟩
  | .narrow condition child =>
    if condition = type then elaborate m type path child
    else if !m.schema.hasType condition then dropped (.unknownType condition)
    else if m.schema.isSubtype condition type || m.schema.isSubtype type condition then
      (elaborate m condition path child).map (.narrow condition)
    else dropped (.elaboration (.neverApplies condition type))
  | .group queries => (Outcome.collect (elaborateAll m type path queries)).map grouped
  | other => .success other

def elaborateAll (m : Mapping) (type : String) (path : List String) :
    List Query → List (Outcome Query)
  | [] => []
  | q :: rest => elaborate m type path q :: elaborateAll m type path rest

end

/-- The root fields that introspection answers. -/
def introspectionRoots : List String := ["__schema", "__type"]

/-- Whether a query selects a root field of introspection. -/
def isIntrospectionRoot : Query → Bool
  | .select name _ _ _ => introspectionRoots.contains name
  | _ => false

/-- Elaborates a root selection of a mapping or, if that is allowed, of introspection. -/
def elaborateRoot (m introspection : Mapping) (allowIntrospection : Bool) (root : Query) :
    Outcome Query :=
  if root.isIntrospectionRoot then
    if allowIntrospection then
      (elaborate introspection introspection.schema.queryType [] root).map introspect
    else dropped .introspectionDisabled
  else elaborate m m.schema.queryType [] root

/-- Elaborates the roots of a request. -/
def elaborateRoots (m introspection : Mapping) (allowIntrospection : Bool) (q : Query) :
    Outcome Query :=
  (Outcome.collect (q.members.map (elaborateRoot m introspection allowIntrospection))).map grouped

end Query

end MappedQuery
