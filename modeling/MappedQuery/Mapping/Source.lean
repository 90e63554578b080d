import MappedQuery.Value.Basic

/-!
# Sources of fields

A field of a document mapping is read from a member of a JSON object. A field of a table mapping
is a column, an object in a table reached by hops between tables, or the discriminator that tells
the concrete type of a row. Hidden fields are not part of the schema.
-/
namespace MappedQuery

/-- What every kind of source field has. -/
class SourceField (φ : Type) where
  name : φ → String
  hidden : φ → Bool

/-- A field read from a member of a JSON object. -/
structure MemberField where
  name : String
  key : String
  hidden : Bool
deriving DecidableEq, Repr

namespace MemberField

instance : SourceField MemberField := ⟨MemberField.name, MemberField.hidden⟩

/-- Read from the member of the field's own name. -/
def same (name : String) : MemberField := ⟨name, name, false⟩

def renamed (name key : String) : MemberField := ⟨name, key, false⟩

/-- Not part of the schema, read as an attribute only. -/
def hiddenMember (name key : String) : MemberField := ⟨name, key, true⟩

end MemberField

structure ColumnRef where
  table : String
  column : String
deriving DecidableEq, Repr

namespace ColumnRef

def display (c : ColumnRef) : String := c.table ++ "." ++ c.column

end ColumnRef

/-- A step from the rows of one table to the rows of another with an equal value. -/
structure Hop where
  parent : ColumnRef
  child : ColumnRef
deriving DecidableEq, Repr

inductive TableField where
  /-- A leaf in a column; key columns tell which entity a row belongs to. -/
  | column (name : String) (column : ColumnRef) (isKey hidden : Bool)
  /-- An object in another table. -/
  | joined (name : String) (hops : List Hop)
  /-- The column whose value tells the concrete type. -/
  | discriminator (column : ColumnRef) (cases : List (Value × String))
deriving Repr

namespace TableField

/-- The name that discriminators are mapped under. -/
def discriminatorName : String := "__discriminator"

def name : TableField → String
  | column name _ _ _ => name
  | joined name _ => name
  | discriminator _ _ => discriminatorName

def hidden : TableField → Bool
  | column _ _ _ hidden => hidden
  | joined _ _ => false
  | discriminator _ _ => true

instance : SourceField TableField := ⟨TableField.name, TableField.hidden⟩

def column? : TableField → Option ColumnRef
  | column _ c _ _ => some c
  | joined _ _ => none
  | discriminator c _ => some c

/-- The column of a key. -/
def keyColumn? : TableField → Option ColumnRef
  | column _ c true _ => some c
  | _ => none

end TableField

end MappedQuery
