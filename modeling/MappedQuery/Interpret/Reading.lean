import MappedQuery.Cursor.Root
import MappedQuery.Interpret.Refinement
import MappedQuery.Mapping.Delegation

/-!
# Reading

A query is read at a cursor. `Query.fields` reads the members that the query asks for of an
object, `Query.value` the document at a position: the elements of a list, null where a nullable
position holds nothing, the encoded value of a leaf, the members of an object. List operations
refine the elements of a position before each of them is read.

How delegated fields are answered is a parameter of reading within one mapping; `Mapping.readRoot`
fills it in by the mapping that a field is delegated to, which is a part of the first one.
-/
namespace MappedQuery

/-- Members of an object. -/
abbrev Members : Type := List (String × Json)

/-- Answers a selection on a type for the delegated fields of a mapping. -/
abbrev Answers (m : Mapping) : Type :=
  (d : Delegate Mapping) → sizeOf d.target < sizeOf m → String → Select → Run Json

namespace Query

/-- What `object` makes of the objects at a position. -/
def readAs (m : Mapping) (object : Cursor → Run Members) : TypeRef → Cursor → Run Json
  | .nullable inner, c => do
    match ← Run.ofExcept c.present? with
    | some present => readAs m object inner present
    | none => pure .null
  | .list item, c => do pure (.array (← c.elements.mapM (readAs m object item)))
  | .named type, c => do
    if c.isLeaf then Run.ofExcept (do m.encode type (← c.leaf))
    else pure (Json.ofMembers (← object c))

/-- Reads a query at a position, where `object` reads what stands below its list operations. -/
def readAt (m : Mapping) (object : Cursor → Run Members) (q : Query) (c : Cursor) :
    Run Json := do
  if q.isListOperation then
    let refined ← Run.ofExcept (q.refine m ⟨c.elements, false⟩)
    let read (e : Cursor) : Run Json := readAs m object e.type e
    if refined.isUnique then
      match refined.elements with
      | [e] => read e
      | es =>
        if es.isEmpty && c.isNullable then pure .null
        else throw (.notUnique (pathText c.path) es.length)
    else pure (.array (← refined.elements.mapM read))
  else readAs m object c.type c

/-- Asks the mapping of a delegated field for the query that its join makes of a selection. -/
def askDelegate {m : Mapping} (answers : Answers m) (d : Delegate Mapping)
    (h : sizeOf d.target < sizeOf m) (type : String) (c : Cursor) (selection : Query) :
    Run Json := do
  match ← Run.ofExcept (d.join c.view selection) with
  | .select name alias? bindings child => answers d h type ⟨name, alias?, bindings, child⟩
  | other => throw (.interpreter (.joinWithoutSelect d.name other))

/-- The document of a computed field. -/
def computedField (m : Mapping) (type name : String) (compute : Computation) (c : Cursor) :
    Except Fault Json := do
  let v ← compute c.view
  m.encode (((m.schema.field? type name).map (·.type.underlying)).getD "") v

/-- Refuses list operations where there is an object. -/
def atObject (q : Query) (read : Cursor → Run Members) (c : Cursor) : Run Members :=
  if q.isListOperation then throw (.interpreter (.unexpectedQuery q c.path)) else read c

mutual

/-- The members of an object that a query asks for, its list operations passed over. -/
def fields (m : Mapping) (answers : Answers m) : Query → Cursor → Run Members
  | .group queries, c => fieldsAll m answers queries c
  | .select name alias? bindings child, c => do
    let key := alias?.getD name
    let type ← Run.ofExcept c.concreteType
    if name = "__typename" then pure [(key, .string type)]
    else
      match h : m.resolve c.path type name with
      | .source => do
        let next ← Run.ofExcept (c.field name)
        pure [(key, ← readAt m (fields m answers child) child next)]
      | .computed compute => do
        pure [(key, ← Run.ofExcept (computedField m type name compute c))]
      | .delegated d => do
        let selection := Query.select name alias? bindings child
        pure [(key, ← askDelegate answers d (Mapping.sizeOf_target_lt h) type c selection)]
  | .component type field child, c => do
    match child with
    | .select name alias? bindings below =>
      match h : m.resolve c.path type field with
      | .delegated d => do
        let selection := Query.select name alias? bindings below
        let value ← askDelegate answers d (Mapping.sizeOf_target_lt h) type c selection
        pure [(alias?.getD name, value)]
      | _ => throw (.missingFieldMapping field type)
    | _ => throw (.interpreter (.malformedComponent (.component type field child)))
  | .narrow type child, c => do
    if c.narrowsTo type then
      let narrowed ← Run.ofExcept (c.narrow type)
      atObject child (fields m answers child) narrowed
    else pure []
  | .empty, _ => pure []
  | .filter _ child, c => fields m answers child c
  | .unique child, c => fields m answers child c
  | .limit _ child, c => fields m answers child c
  | .orderBy _ child, c => fields m answers child c
  | .introspect child, c => throw (.interpreter (.unexpectedQuery (.introspect child) c.path))

/-- The members of an object that queries ask for, one after the other. -/
def fieldsAll (m : Mapping) (answers : Answers m) : List Query → Cursor → Run Members
  | [], _ => pure []
  | q :: rest, c => do
    let members ← atObject q (fields m answers q) c
    pure (members ++ (← fieldsAll m answers rest c))

end

/-- The document of a query at a position. -/
def value (m : Mapping) (answers : Answers m) (q : Query) (c : Cursor) : Run Json :=
  readAt m (fields m answers q) q c

end Query

namespace Mapping

/-- The document of a root field that is declared on a type. -/
def readRoot (m : Mapping) (type : String) (s : Select) : Run Json := do
  let (residual, c) ← m.openRoot type s
  residual.value m (fun d _ type s => d.target.readRoot type s) c
termination_by sizeOf m

end Mapping

end MappedQuery
