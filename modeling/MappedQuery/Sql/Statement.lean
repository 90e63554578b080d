import MappedQuery.Sql.Cell

/-!
# Statements

A `Statement` selects expressions from a table and the tables that are joined to it from the left,
under conditions and in ascending order of expressions. Conditions and expressions contain each
other. `Condition.conjoin` joins two conditions and drops the one that always holds.
-/
namespace MappedQuery.Sql

/-- A table under the name that a statement gives it. -/
structure Table where
  name : String
  alias? : Option String
deriving DecidableEq, Repr, Inhabited

namespace Table

/-- The name that the columns of a table are qualified with. -/
def reference (t : Table) : String := t.alias?.getD t.name

end Table

structure Column where
  table? : Option Table
  name : String
deriving DecidableEq, Repr, Inhabited

inductive Comparison where
  | equal
  | notEqual
  | less
  | lessOrEqual
  | greater
  | greaterOrEqual
  | like
deriving DecidableEq, Repr

mutual

inductive Expression where
  | column (c : Column)
  /-- A value that is bound to the statement. -/
  | parameter (c : Cell)
  /-- A text in lower case. -/
  | lower (e : Expression)
  | compare (op : Comparison) (left right : Expression)
  | isIn (e : Expression) (choices : List Expression)
  | isNull (e : Expression)
  | isNotNull (e : Expression)
  | condition (c : Condition)
deriving Repr, Inhabited

inductive Condition where
  | and (left right : Expression)
  | or (left right : Expression)
  | not (e : Expression)
  | single (e : Expression)
  | always
  | never
deriving Repr, Inhabited

end

namespace Expression

/-- The condition that an expression states. -/
def toCondition : Expression → Condition
  | condition c => c
  | e => .single e

end Expression

namespace Condition

def isAlways : Condition → Bool
  | always => true
  | _ => false

/-- Both conditions; one that always holds is dropped. -/
def conjoin : Condition → Condition → Condition
  | always, d => d
  | c, always => c
  | c, d => and (.condition c) (.condition d)

/-- All conditions, joined from the left. -/
def all (cs : List Condition) : Condition := cs.foldl conjoin always

@[simp] theorem conjoin_always (c : Condition) : c.conjoin always = c := by cases c <;> rfl

@[simp] theorem always_conjoin (c : Condition) : always.conjoin c = c := by cases c <;> rfl

end Condition

/-- A table joined from the left, and what its rows are joined on. -/
structure Join where
  table : Table
  on : Condition
deriving Repr, Inhabited

structure Statement where
  columns : List Expression
  table? : Option Table
  joins : List Join
  condition? : Option Condition
  order : List Expression
deriving Repr, Inhabited

namespace Statement

/-- The statement under one more condition. -/
def addCondition (s : Statement) (c : Condition) : Statement :=
  let joined := (s.condition?.getD .always).conjoin c
  { s with condition? := if joined.isAlways then none else some joined }

end Statement

end MappedQuery.Sql
