import MappedQuery.Cursor.Basic

/-!
# Attributes and views

Attributes are what a mapping knows of an object beside the fields of the schema: hidden fields
of its source, and values computed from the object, which may read other attributes. Such
readings are followed a bounded number of steps, enough for all that do not lead back to
themselves. `Cursor.view` is what computations and joins see of the object at a cursor.
-/
namespace MappedQuery.Cursor

/-- An attribute of an object. -/
inductive Attribute where
  /-- Computed from the object. -/
  | computed (compute : Computation)
  /-- Read from a hidden field. -/
  | hidden (value : Except Fault Value)

/-- The attribute that a registry declares for an object type, with `read` for hidden fields. -/
def declaredAttribute? [SourceField φ] (c : Cursor) (r : Registry φ ρ μ) (type name : String)
    (read : φ → Option (Except Fault Value)) : Option Attribute :=
  match r.fieldMapping? c.path type name with
  | some (.computedAttribute a) => some (.computed a.compute)
  | some (.source f) => if SourceField.hidden f then (read f).map .hidden else none
  | _ => none

/-- The attribute of an object type at the position. -/
def attribute? (c : Cursor) (type name : String) : Option Attribute :=
  match c.focus with
  | .document r json =>
    c.declaredAttribute? r type name fun f =>
      some (.ok (.ofJson ((json.get? f.key).getD .null)))
  | .table r e =>
    c.declaredAttribute? r type name fun f =>
      f.column?.map fun column => Sql.Cell.toValue <$> c.columnCell e column.column

/-- What is seen of the object at a cursor whose attributes are read as given. -/
def viewWith (c : Cursor) (read : String → Except Fault Value) : ObjectView where
  path := c.path
  type := c.type
  concreteType := c.concreteType
  hasField := c.hasField
  leaf name := do (← c.field name).leaf
  nullableLeaf name := do
    match ← (← c.field name).present? with
    | some inner => some <$> inner.leaf
    | none => pure none
  count name := do pure (← c.field name).elements.length
  hasAttribute name := (read name).isOk
  attributeValue := read
  narrowsTo := c.narrowsTo

/-- An attribute, read through at most `steps` computations. -/
def attributeWithin (c : Cursor) : Nat → String → Except Fault Value
  | 0, name => .error (.interpreter (.endlessAttribute name))
  | steps + 1, name => do
    let type ← c.concreteType
    match c.attribute? type name with
    | some (.computed compute) => compute (c.viewWith (c.attributeWithin steps))
    | some (.hidden value) => value
    | none => throw (.missingAttribute name type)

/-- How many fields the mapping declares; a chain of attributes without repetition is no
longer. -/
def declaredFields (c : Cursor) : Nat :=
  match c.focus with
  | .document r _ => r.allFields.length
  | .table r _ => r.allFields.length

/-- The value of an attribute of the object. -/
def attributeValue (c : Cursor) (name : String) : Except Fault Value :=
  c.attributeWithin (c.declaredFields + 1) name

def hasAttribute (c : Cursor) (name : String) : Bool := (c.attributeValue name).isOk

/-- What computations and joins see of the object at the cursor. -/
def view (c : Cursor) : ObjectView := c.viewWith c.attributeValue

end MappedQuery.Cursor
