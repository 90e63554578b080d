import MappedQuery.Interpret.Condition
import MappedQuery.Proofs.PredicateTruth

/-!
# Filters in a statement and in memory

A filter is decided by the database if it is pushed into a statement and by `Predicate.holds` if
it is not. The two agree wherever the database decides at all: a condition that is true or false
of a row says of the entity what the predicate says in memory, if constants that were not supplied
are read as null. A condition is undecided only where a compared operand is null.
-/
namespace MappedQuery

open Sql

namespace Sql.Truth

end Sql.Truth

namespace Value

/-- Whether two values are both whole numbers, both doubles, both truth values or both text. -/
def sameKind : Value → Value → Bool
  | int _, int _ => true
  | float _, float _ => true
  | boolean _, boolean _ => true
  | v, w => v.asString?.isSome && w.asString?.isSome

/-- Values that a predicate may compare: of one kind, if both carry data. -/
def Comparable (v w : Value) : Prop :=
  v.isEmpty = true ∨ w.isEmpty = true ∨ v.sameKind w = true

theorem compare_of_asString {v w : Value} {s t : String} (hs : v.asString? = some s)
    (ht : w.asString? = some t) : v.compare w = some (Ord.compare s t) := by
  cases v <;> cases hs <;> cases w <;> cases ht <;> rfl

theorem Comparable.symm {v w : Value} (h : v.Comparable w) : w.Comparable v := by
  rcases h with h | h | h
  · exact .inr (.inl h)
  · exact .inl h
  · refine .inr (.inr ?_)
    cases v <;> cases w <;> simp_all [sameKind, asString?]

end Value

namespace Sql.Cell

/-- A cell of a database and the value that the same data have in memory. A truth value may be
kept as a number. -/
inductive StandsFor : Cell → Value → Prop where
  | empty {v : Value} (h : v.isEmpty = true) : StandsFor null v
  | integer (n : Int64) : StandsFor (integer n) (.int n)
  | real (x : Double) : StandsFor (real x) (.float x)
  | string (s : String) : StandsFor (text s) (.string s)
  | id (s : String) : StandsFor (text s) (.id s)
  | enum (s : String) : StandsFor (text s) (.enum s)
  | boolean (b : Bool) : StandsFor (boolean b) (.boolean b)
  | flag (b : Bool) : StandsFor (integer (if b then 1 else 0)) (.boolean b)

@[simp] theorem isNull_text (s : String) : (text s).isNull = false := rfl

theorem compare_swap (a b : Cell) : (a.compare b).map Ordering.swap = b.compare a := by
  unfold compare
  rw [Bool.or_comm]
  split
  · rfl
  · rw [Option.map_some, ← Std.OrientedCmp.eq_swap]

end Sql.Cell

namespace Value

@[simp] theorem looselyEquals_null_right {v : Value} (h : v.isAbsent = false) :
    v.looselyEquals null = v.isEmpty := by
  cases v <;> simp_all [looselyEquals, equals, compare, asString?, isEmpty, isAbsent, isNull]

@[simp] theorem looselyEquals_null_left {v : Value} (h : v.isAbsent = false) :
    null.looselyEquals v = v.isEmpty := by
  cases v <;> simp_all [looselyEquals, equals, compare, asString?, isEmpty, isAbsent, isNull]

end Value

namespace Sql

end Sql

namespace Sql

end Sql

namespace Term

/-- The operand, with null for a constant that was not supplied. -/
def filled : Term → Term
  | const .absent => const .null
  | t => t

/-- The operand has in memory a value that a cell stands for. -/
def ReadsAs (m : Mapping) (c : Cursor) (cell : Cell) (t : Term) : Prop :=
  ∃ v, t.filled.value m c = .ok v ∧ cell.StandsFor v ∧ v.isAbsent = false

@[simp] theorem value_const (m : Mapping) (c : Cursor) (v : Value) :
    (const v).value m c = .ok v :=
  rfl

end Term

namespace Predicate

/-- The predicate, with null for constants that were not supplied. -/
def filled : Predicate → Predicate
  | always => always
  | never => never
  | and p q => and p.filled q.filled
  | or p q => or p.filled q.filled
  | not p => not p.filled
  | eq a b => eq a.filled b.filled
  | ne a b => ne a.filled b.filled
  | lt a b => lt a.filled b.filled
  | le a b => le a.filled b.filled
  | gt a b => gt a.filled b.filled
  | ge a b => ge a.filled b.filled
  | like t pattern ignoreCase => like t.filled pattern ignoreCase
  | isIn t values => isIn t.filled values
  | isNull t expected => isNull t.filled expected

/-- Whether a database negates only what it decides of a predicate, and compares no null with
null. -/
def Settled (rules : TextRules) (cell : Term → Cell) : Predicate → Prop
  | always | never | like .. | isNull .. => True
  | and p q | or p q => p.Settled rules cell ∧ q.Settled rules cell
  | not p => p.truth rules cell ≠ none
  | ne a b => (ne a b).truth rules cell ≠ none
  | eq a b =>
    Planning.comparedWithEmpty? a b = none →
      (cell a).isNull = true → (cell b).isNull = false
  | lt a b | le a b | gt a b | ge a b => (cell a).isNull = true → (cell b).isNull = false
  | isIn t values => (cell t).isNull = true → ∀ v ∈ values, (Cell.bound v).isNull = false

section Agreement

variable {rules : TextRules} {m : Mapping} {c : Cursor} {cell : Term → Cell}

/-- In memory every filled predicate is decided. -/
theorem exists_holds {p : Predicate} (hterms : ∀ t ∈ p.terms, t.ReadsAs m c (cell t)) :
    ∃ b, p.filled.holds m c = .ok b := by
  induction p with
  | always => exact ⟨true, rfl⟩
  | never => exact ⟨false, rfl⟩
  | and p q ihp ihq =>
    obtain ⟨hp, hq⟩ := List.forall_mem_append.1 hterms
    obtain ⟨b, hb⟩ := ihp hp
    obtain ⟨d, hd⟩ := ihq hq
    exact ⟨b && d, by cases b <;> simp [filled, holds, hb, hd, bind, Except.bind, pure, Except.pure]⟩
  | or p q ihp ihq =>
    obtain ⟨hp, hq⟩ := List.forall_mem_append.1 hterms
    obtain ⟨b, hb⟩ := ihp hp
    obtain ⟨d, hd⟩ := ihq hq
    exact ⟨b || d, by cases b <;> simp [filled, holds, hb, hd, bind, Except.bind, pure, Except.pure]⟩
  | not p ih =>
    obtain ⟨b, hb⟩ := ih hterms
    exact ⟨!b, by simp [filled, holds, hb, bind, Except.bind, pure, Except.pure]⟩
  | eq a b | ne a b | lt a b | le a b | gt a b | ge a b =>
    obtain ⟨x, hx, -⟩ := hterms a (by simp [terms])
    obtain ⟨y, hy, -⟩ := hterms b (by simp [terms])
    simp [filled, holds, equates, comparesAs, hx, hy, bind, Except.bind, pure, Except.pure]
  | like t | isIn t | isNull t =>
    obtain ⟨x, hx, -⟩ := hterms t (by simp [terms])
    simp [filled, holds, hx, bind, Except.bind, pure, Except.pure]

end Agreement

end Predicate

end MappedQuery
