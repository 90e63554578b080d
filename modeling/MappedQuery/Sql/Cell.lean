import MappedQuery.Problem.Fault

/-!
# Cells and rows

A `Cell` is a value bound to a statement or read back from a row, and a `ResultSet` holds the
rows that answer a statement. Only scalars can be bound.
-/
namespace MappedQuery.Sql

inductive Cell where
  | null
  | integer (n : Int64)
  | real (x : Double)
  | text (s : String)
  | boolean (b : Bool)
deriving DecidableEq, Repr, Inhabited

namespace Cell

def isNull : Cell → Bool
  | null => true
  | _ => false

/-- The cell of a scalar; absent and null are both null. -/
def ofValue : Value → Except ConnectorFault Cell
  | .absent | .null => .ok null
  | .int n => .ok (integer n)
  | .float x => .ok (real x)
  | .boolean b => .ok (boolean b)
  | .string s | .id s | .enum s => .ok (text s)
  | v => .error (.unbindable v.kind)

/-- The value of a cell before the schema gives it a type. -/
def toValue : Cell → Value
  | null => .null
  | integer n => .int n
  | real x => .float x
  | text s => .string s
  | boolean b => .boolean b

def display (c : Cell) : String := c.toValue.display

/-- A cell is bound as itself. -/
@[simp] theorem ofValue_toValue (c : Cell) : ofValue c.toValue = .ok c := by cases c <;> rfl

end Cell

abbrev Row : Type := List Cell

/-- The rows of a statement with the names of their columns. -/
structure ResultSet where
  columns : List String
  rows : List Row
deriving DecidableEq, Repr, Inhabited

namespace ResultSet

def size (r : ResultSet) : Nat := r.rows.length

def cell? (r : ResultSet) (row column : Nat) : Option Cell :=
  r.rows[row]?.bind fun cells => cells[column]?

end ResultSet

end MappedQuery.Sql
