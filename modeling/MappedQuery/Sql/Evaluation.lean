import MappedQuery.Sort.Stable
import MappedQuery.Sql.Session
import MappedQuery.Sql.Text

/-!
# What statements mean

`Statement.rows` evaluates a statement over tables. Truth has three values, and a comparison with
null has the third. The joins extend the rows of the first table one after the other, a row
without a match by nulls; a condition keeps the rows of which it is true; the order is ascending
with nulls first. Numbers of both kinds are compared exactly. How text is put into lower case and
how it is matched is up to the database.
-/
namespace MappedQuery.Sql

/-- True, false or, if it is none, unknown. -/
abbrev Truth : Type := Option Bool

namespace Truth

def and : Truth → Truth → Truth
  | some false, _ => some false
  | _, some false => some false
  | some true, t => t
  | t, some true => t
  | none, none => none

def or : Truth → Truth → Truth
  | some true, _ => some true
  | _, some true => some true
  | some false, t => t
  | t, some false => t
  | none, none => none

def not (t : Truth) : Truth := t.map (!·)

end Truth

/-- How a database treats text. -/
structure TextRules where
  lower : String → String
  /-- Whether a text, the second, has the shape of a pattern. -/
  like : String → String → Bool

/-- A row of a table; columns that the table does not have are null. -/
abbrev TableRow : Type := String → Cell

namespace TableRow

/-- What a join adds to a row without a match. -/
def absent : TableRow := fun _ => .null

end TableRow

/-- The tables of a database, by name. -/
abbrev Tables : Type := String → List TableRow

/-- The rows of joined tables, under the names that the statement gives the tables. -/
abbrev JoinedRow : Type := List (String × TableRow)

namespace JoinedRow

/-- The cell of a column; without a table it is one of the first. -/
def cell (joined : JoinedRow) (c : Column) : Cell :=
  let named? : Option (String × TableRow) :=
    match c.table? with
    | some t => joined.find? (·.1 = t.reference)
    | none => joined.head?
  match named? with
  | some (_, row) => row c.name
  | none => .null

end JoinedRow

namespace Cell

/-- Numbers come before text. What a database does not tell from null, null itself and
not-a-number, has no rank. -/
def rank : Cell → Nat
  | null => 0
  | real x => if x.isNaN then 0 else 1
  | integer _ => 1
  | boolean _ => 1
  | text _ => 2

/-- The exact number of a cell in units of the smallest positive double; truth values are numbers
too. -/
def scaled : Cell → Int
  | integer n => Double.scaleOfInt n.toInt
  | real x => if x.isNaN then 0 else x.scaled
  | boolean b => Double.scaleOfInt (if b then 1 else 0)
  | null => 0
  | text _ => 0

/-- The text of a cell, empty for all else. -/
def content : Cell → String
  | text s => s
  | _ => ""

/-- The order in which a database lists cells, nulls first. -/
def sortOrder : Cell → Cell → Ordering :=
  compareLex (compareOn rank) (compareLex (compareOn scaled) (compareOn content))

/-- The order of two cells, numbers by their exact values; null has none. -/
def compare (a b : Cell) : Option Ordering :=
  if a.rank = 0 || b.rank = 0 then none else some (sortOrder a b)

/-- A cell as text. -/
def asText : Cell → String
  | text s => s
  | c => c.display

/-- A cell as a truth value. -/
def truth : Cell → Truth
  | null => none
  | integer n => some (n != 0)
  | real x => some !(x.equals ⟨0⟩)
  | boolean b => some b
  | text _ => some false

def ofTruth (t : Truth) : Cell := (t.map boolean).getD null

end Cell

namespace Comparison

/-- What a comparison says of two cells. -/
def holds (rules : TextRules) (op : Comparison) (a b : Cell) : Truth :=
  if a.isNull || b.isNull then none
  else
    match op with
    | equal => (a.compare b).map (· == .eq)
    | notEqual => (a.compare b).map (· != .eq)
    | less => (a.compare b).map (·.isLT)
    | lessOrEqual => (a.compare b).map (·.isLE)
    | greater => (a.compare b).map (·.isGT)
    | greaterOrEqual => (a.compare b).map (·.isGE)
    | like => some (rules.like b.asText a.asText)

end Comparison

/-- Whether a cell is one of several. -/
def isAmong (a : Cell) (choices : List Cell) : Truth :=
  choices.foldl (fun t c => t.or (Comparison.equal.holds ⟨id, fun _ _ => false⟩ a c)) (some false)

mutual

/-- The value of an expression in joined rows. -/
def Expression.eval (rules : TextRules) (joined : JoinedRow) : Expression → Cell
  | .column c => joined.cell c
  | .parameter c => c
  | .lower e =>
    match e.eval rules joined with
    | .null => .null
    | c => .text (rules.lower c.asText)
  | .compare op left right =>
    .ofTruth (op.holds rules (left.eval rules joined) (right.eval rules joined))
  | .isIn e choices =>
    .ofTruth (isAmong (e.eval rules joined) (Expression.evalAll rules joined choices))
  | .isNull e => .boolean (e.eval rules joined).isNull
  | .isNotNull e => .boolean !(e.eval rules joined).isNull
  | .condition c => .ofTruth (c.eval rules joined)

def Expression.evalAll (rules : TextRules) (joined : JoinedRow) : List Expression → List Cell
  | [] => []
  | e :: rest => e.eval rules joined :: Expression.evalAll rules joined rest

/-- What a condition says of joined rows. -/
def Condition.eval (rules : TextRules) (joined : JoinedRow) : Condition → Truth
  | .and left right => (left.eval rules joined).truth.and (right.eval rules joined).truth
  | .or left right => (left.eval rules joined).truth.or (right.eval rules joined).truth
  | .not e => (e.eval rules joined).truth.not
  | .single e => (e.eval rules joined).truth
  | .always => some true
  | .never => some false

end

namespace Join

/-- The row with each row of the joined table that it matches, or with nulls. -/
def extend (rules : TextRules) (tables : Tables) (j : Join) (joined : JoinedRow) :
    List JoinedRow :=
  let candidates := (tables j.table.name).map fun row => joined ++ [(j.table.reference, row)]
  match candidates.filter fun c => j.on.eval rules c = some true with
  | [] => [joined ++ [(j.table.reference, .absent)]]
  | found => found

end Join

namespace Statement

/-- The rows of the table that a statement starts from. -/
def firstRows (s : Statement) (tables : Tables) : List JoinedRow :=
  match s.table? with
  | some t => (tables t.name).map fun row => [(t.reference, row)]
  | none => [[]]

/-- The joined rows that satisfy a statement, in order. -/
def joinedRows (s : Statement) (rules : TextRules) (tables : Tables) : List JoinedRow :=
  let joined := s.joins.foldl (fun rows j => rows.flatMap (j.extend rules tables))
    (s.firstRows tables)
  let kept := joined.filter fun r => (s.condition?.getD .always).eval rules r = some true
  let keys (r : JoinedRow) : List Cell := s.order.map (·.eval rules r)
  stableSort (fun a b => List.compareLex Cell.sortOrder (keys a) (keys b)) kept

/-- The rows that a statement selects from tables, one cell for each expression that it names. -/
def rows (s : Statement) (rules : TextRules) (tables : Tables) : List Row :=
  (s.joinedRows rules tables).map fun r => s.columns.map (·.eval rules r)

end Statement

/-- The name of a column of rows: that of the column that is selected, else the text of the
expression. -/
def Expression.label : Expression → String
  | .column c => c.name
  | e => ((e.write placeholder).run []).1

namespace Database

/-- A database over tables that do not change. -/
def ofTables (rules : TextRules) (tables : Tables) : Database := fun _ s =>
  .ok ⟨s.columns.map (·.label), s.rows rules tables⟩

end Database

end MappedQuery.Sql
