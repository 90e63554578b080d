import MappedQuery.Sql.Statement

/-!
# The text of statements

`Statement.build` writes a statement with a question mark for every value that is bound to it and
notes these values on the way. Names stand between back quotes, one inside a name being written
twice, so no value and no name can change how a statement reads. A choice among nothing never
holds and is written without its operands.
-/
namespace MappedQuery.Sql

/-- A name between back quotes. -/
def quoteName (name : String) : String :=
  "`" ++ String.ofList (name.toList.flatMap fun c => if c.toNat = 96 then [c, c] else [c]) ++ "`"

namespace Table

def text (t : Table) : String :=
  match t.alias? with
  | some a => quoteName t.name ++ " AS " ++ quoteName a
  | none => quoteName t.name

end Table

namespace Column

def text (c : Column) : String :=
  match c.table? with
  | some t => quoteName t.reference ++ "." ++ quoteName c.name
  | none => quoteName c.name

end Column

namespace Comparison

def text : Comparison → String
  | equal => "="
  | notEqual => "<>"
  | less => "<"
  | lessOrEqual => "<="
  | greater => ">"
  | greaterOrEqual => ">="
  | like => "LIKE"

end Comparison

/-- Writing notes the values that are bound to what is written. -/
abbrev Writing (α : Type) : Type := StateM (List Cell) α

section Writing

-- how the place of a bound value is marked
variable (mark : Cell → String)

/-- Notes a value and marks its place. -/
def writeParameter (c : Cell) : Writing String := do
  modify (· ++ [c])
  return mark c

mutual

def Expression.write : Expression → Writing String
  | .column c => return c.text
  | .parameter c => writeParameter mark c
  | .lower e => return "LOWER(" ++ (← e.write) ++ ")"
  | .compare op left right => do
    let left ← left.write
    let right ← right.write
    return left ++ " " ++ op.text ++ " " ++ right
  | .isIn _ [] => return "1=0"
  | .isIn e (c :: cs) => do
    let e ← e.write
    let choices ← Expression.writeAll (c :: cs)
    return e ++ " IN (" ++ String.intercalate "," choices ++ ")"
  | .isNull e => return (← e.write) ++ " IS NULL"
  | .isNotNull e => return (← e.write) ++ " IS NOT NULL"
  | .condition c => c.write

def Expression.writeAll : List Expression → Writing (List String)
  | [] => return []
  | e :: rest => do
    let e ← e.write
    let rest ← Expression.writeAll rest
    return e :: rest

def Condition.write : Condition → Writing String
  | .and left right => do
    let left ← left.write
    let right ← right.write
    return "(" ++ left ++ " AND " ++ right ++ ")"
  | .or left right => do
    let left ← left.write
    let right ← right.write
    return "(" ++ left ++ " OR " ++ right ++ ")"
  | .not e => return "(NOT " ++ (← e.write) ++ ")"
  | .single e => e.write
  | .always => return "1=1"
  | .never => return "1=0"

end

def Join.write (j : Join) : Writing String :=
  return "LEFT JOIN " ++ j.table.text ++ " ON " ++ (← j.on.write mark)

namespace Statement

def writeColumns (s : Statement) : Writing String :=
  if s.columns.isEmpty then return "*"
  else return String.intercalate ", " (← Expression.writeAll mark s.columns)

def writeCondition (s : Statement) : Writing (List String) :=
  match s.condition? with
  | some c => return ["WHERE " ++ (← c.write mark)]
  | none => return []

def writeOrder (s : Statement) : Writing (List String) :=
  if s.order.isEmpty then return []
  else do
    let keys ← Expression.writeAll mark s.order
    return ["ORDER BY " ++ String.intercalate ", " (keys.map (· ++ " ASC"))]

/-- The clauses of a statement, in order; those that would be empty are left out. -/
def write (s : Statement) : Writing String := do
  let columns ← s.writeColumns mark
  let table := s.table?.map fun t => "FROM " ++ t.text
  let joins ← s.joins.mapM (Join.write mark)
  let condition ← s.writeCondition mark
  let order ← s.writeOrder mark
  return String.intercalate " " (["SELECT", columns] ++ table.toList ++ joins ++ condition ++ order)

end Statement

end Writing

/-- Values are marked by question marks. -/
def placeholder : Cell → String := fun _ => "?"

/-- The text of a statement and the values that are bound to it, in the order of their marks. -/
def Statement.build (s : Statement) : String × List Cell := (s.write placeholder).run []

end MappedQuery.Sql
