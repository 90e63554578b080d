import MappedQuery.Sql.Entity
import MappedQuery.Value.Document

/-!
# Cursors

A `Cursor` is a position in the data that answer a root field: the fields followed to it, its
type, and a `Focus` on a document or on an extent of the rows of a statement, which is either
the rows of an entity or one column of it. The type of a position is read from the outside in: a
nullable position is asked whether it holds anything, a list is taken apart into its elements,
and only then fields and leaves can be read.
-/
namespace MappedQuery

/-- A part of the rows of a statement. -/
inductive Sql.Extent where
  /-- Rows seen as entities of one of the tables. -/
  | rows (group : RowGroup)
  /-- The value of a column. -/
  | cell (cell : Cell)
deriving Repr

/-- What a cursor looks at. -/
inductive Focus where
  | document (registry : DocumentRegistry) (json : Json)
  | table (registry : TableRegistry) (extent : Sql.Extent)

structure Cursor where
  /-- The fields followed from the root. -/
  path : List String
  type : TypeRef
  focus : Focus

namespace Cursor

def schema (c : Cursor) : Schema :=
  match c.focus with
  | .document r _ => r.schema
  | .table r _ => r.schema

def isNullable (c : Cursor) : Bool := c.type.isNullable

def isList (c : Cursor) : Bool := c.type.isList

/-- Whether the position holds a scalar or an enumeration value. -/
def isLeaf (c : Cursor) : Bool :=
  match c.type with
  | .named name => c.schema.isLeaf name
  | _ => false

/-- The position is not what it is read as. -/
def mismatch (c : Cursor) (expected : String) : Except Fault α :=
  .error (.interpreter (.mismatch expected c.path c.type))

/-- A selected column of the entity. -/
def columnCell (c : Cursor) (e : Sql.Extent) (column : String) : Except Fault Sql.Cell :=
  match e with
  | .rows group =>
    match group.node.column? column with
    | some position => .ok (group.firstCell position)
    | none => .error (.interpreter (.columnNotSelected group.node.table column))
  | .cell _ => c.mismatch "an object"

/-- The member of a document that tells its concrete type. -/
def typenameKey : String := "__typename"

/-- The concrete type that a member of the document tells. -/
def documentType (c : Cursor) (json : Json) (declared : String) : Except Fault String :=
  match (json.get? typenameKey).bind (·.asString?) with
  | some name => .ok name
  | none => .error (.interpreter (.noTypename declared c.path))

/-- The concrete type that a column of the entity tells. -/
def entityType (c : Cursor) (r : TableRegistry) (e : Sql.Extent) (declared : String) :
    Except Fault String := do
  match r.fieldMapping? c.path declared TableField.discriminatorName with
  | some (.source (.discriminator column cases)) =>
    let value := (← c.columnCell e column.column).toValue
    match cases.find? fun choice => choice.1.looselyEquals value with
    | some (_, type) => pure type
    | none => throw (.interpreter (.unknownDiscriminator value declared c.path))
  | _ => throw (.interpreter (.noDiscriminator declared))

/-- The type of the object at the position: the declared one, unless that is abstract. -/
def concreteType (c : Cursor) : Except Fault String :=
  let declared := c.type.underlying
  if c.schema.isAbstract declared then
    match c.focus with
    | .document _ json => c.documentType json declared
    | .table r e => c.entityType r e declared
  else .ok declared

/-- The text of an enumeration or identifier type as a value of it, and a whole number as an
identifier or a double. -/
def typedLeaf (schema : Schema) (type : String) (v : Value) : Value :=
  match v with
  | .string s =>
    match schema.find? type with
    | some (.enum ..) => .enum s
    | _ => if type = "ID" then .id s else v
  | .int n =>
    if type = "ID" then .id (toString n.toInt)
    else if type = "Float" then .float (Double.ofInt n.toInt)
    else v
  | _ => v

/-- A cell as a value of a type; a database may have whole numbers for truth values. -/
def typedCell (schema : Schema) (type : String) (cell : Sql.Cell) : Value :=
  match cell with
  | .integer n => if type = "Boolean" then .boolean (n != 0) else typedLeaf schema type (.int n)
  | _ => typedLeaf schema type cell.toValue

/-- The value of a leaf. -/
def leaf (c : Cursor) : Except Fault Value :=
  if c.isLeaf then
    match c.focus with
    | .document _ json => .ok (typedLeaf c.schema c.type.underlying (.ofJson json))
    | .table _ (.cell cell) => .ok (typedCell c.schema c.type.underlying cell)
    | .table _ (.rows ..) => c.mismatch "a leaf"
  else c.mismatch "a leaf"

/-- The elements at the position; a position that is no list has itself as its only one, if it
holds anything. -/
def elements (c : Cursor) : List Cursor :=
  let element (focus : Focus) : Cursor := { c with type := c.type.element, focus }
  match c.focus with
  | .document r json =>
    match json with
    | .array elements => elements.map fun e => element (.document r e)
    | .null => []
    | _ => [element c.focus]
  | .table r (.rows group) => group.entities.map fun entity => element (.table r (.rows entity))
  | .table _ (.cell cell) => if cell.isNull then [] else [element c.focus]

/-- A nullable position without its nullability, none if it holds nothing. -/
def present? (c : Cursor) : Except Fault (Option Cursor) :=
  match c.type with
  | .nullable inner =>
    match c.focus with
    | .document _ json =>
      if json.isNull then .ok none else .ok (some { c with type := inner })
    | .table r (.rows group) =>
      if group.present.rows.isEmpty then .ok none
      else .ok (some { c with type := inner, focus := .table r (.rows group.present) })
    | .table _ (.cell cell) =>
      if cell.isNull then .ok none else .ok (some { c with type := inner })
  | _ => c.mismatch "a nullable value"

/-- Whether the object at the position is of a type. -/
def narrowsTo (c : Cursor) (type : String) : Bool :=
  match c.concreteType with
  | .ok concrete => c.schema.isSubtype concrete type
  | .error _ => false

/-- The position seen as one of a narrower type. -/
def narrow (c : Cursor) (type : String) : Except Fault Cursor :=
  if c.narrowsTo type then .ok { c with type := .named type } else c.mismatch type

/-- The visible field of the source, with the concrete type it belongs to. -/
def sourceField [SourceField φ] (c : Cursor) (r : Registry φ ρ μ) (name : String) :
    Except Fault (String × φ) := do
  let type ← c.concreteType
  match r.sourceField? c.path type name with
  | some f =>
    if SourceField.hidden f then throw (.missingFieldMapping name type) else pure (type, f)
  | none => throw (.missingFieldMapping name type)

/-- Whether the data hold a field. -/
def hasField (c : Cursor) (name : String) : Bool :=
  match c.focus with
  | .document r json =>
    match c.sourceField r name with
    | .ok (_, f) => (json.get? f.key).isSome
    | .error _ => false
  | .table r (.rows group) =>
    match c.sourceField r name with
    | .ok (_, .column _ column _ _) => (group.node.column? column.column).isSome
    | .ok (_, .joined ..) => (group.node.child? name).isSome
    | _ => false
  | .table _ (.cell _) => false

/-- The declared type of a field of an object type. -/
def fieldType (c : Cursor) (type name : String) : Except Fault TypeRef :=
  match c.schema.field? type name with
  | some f => .ok f.type
  | none => .error (.unknownField name type)

/-- The part of the rows that a field mapped to tables looks at. -/
def fieldExtent (c : Cursor) (e : Sql.Extent) (type name : String) :
    TableField → Except Fault Sql.Extent
  | .column _ column _ _ => do pure (.cell (← c.columnCell e column.column))
  | .joined .. =>
    match e with
    | .rows group =>
      match group.node.child? name with
      | some child => .ok (.rows (group.seenAs child))
      | none => .error (.interpreter (.fieldNotJoined name type))
    | .cell _ => c.mismatch "an object"
  | .discriminator .. => .error (.missingFieldMapping name type)

/-- A field of the object at the position. -/
def field (c : Cursor) (name : String) : Except Fault Cursor :=
  let path := c.path ++ [name]
  match c.focus with
  | .document r json => do
    let (owner, f) ← c.sourceField r name
    let type ← c.fieldType owner name
    pure ⟨path, type, .document r ((json.get? f.key).getD .null)⟩
  | .table r e => do
    let (owner, f) ← c.sourceField r name
    let type ← c.fieldType owner name
    pure ⟨path, type, .table r (← c.fieldExtent e owner name f)⟩

end Cursor

end MappedQuery
