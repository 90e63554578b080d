import MappedQuery.Proofs.CellOrder
import MappedQuery.Proofs.Sequencing

/-!
# What a database says of a predicate

`Predicate.truth` gives a predicate one of three truth values from the cells of its operands. A
condition into which a predicate is translated has that value in every row, so all that is to be
known of a pushed filter can be read off the predicate and the columns it compares.
-/
namespace MappedQuery

open Sql

namespace Sql

namespace Cell

/-- The cell that a value is bound as, null if it cannot be bound. -/
def bound (v : Value) : Cell :=
  match ofValue v with
  | .ok c => c
  | .error _ => .null

/-- The lower case of a cell's text. -/
def lowered (rules : TextRules) : Cell → Cell
  | null => null
  | c => text (rules.lower c.asText)

@[simp] theorem truth_boolean (b : Bool) : (boolean b).truth = some b := rfl

@[simp] theorem truth_ofTruth (t : Truth) : (ofTruth t).truth = t := by
  rcases t with _ | b <;> rfl

theorem mapM_ofValue {values : List Value} {cells : List Cell}
    (h : values.mapM ofValue = .ok cells) : cells = values.map bound := by
  induction values generalizing cells with
  | nil => cases h; rfl
  | cons v values ih =>
    rw [List.mapM_cons] at h
    cases hv : ofValue v with
    | error f => simp [hv, bind, Except.bind] at h
    | ok c =>
      cases hrest : values.mapM ofValue with
      | error f => simp [hv, hrest, bind, Except.bind] at h
      | ok rest =>
        simp only [hv, hrest, bind, Except.bind, pure, Except.pure, Except.ok.injEq] at h
        rw [← h, ih hrest, List.map_cons, bound, hv]

end Cell

/-- The cell of an operand in joined rows, null if a node's table cannot say it. -/
def operandCell (r : TableRegistry) (n : TableNode) (place : Place) (rules : TextRules)
    (joined : JoinedRow) (t : Term) : Cell :=
  match Planning.expression? r n place t with
  | some e => e.eval rules joined
  | none => .null

theorem evalAll_parameters (rules : TextRules) (joined : JoinedRow) (cells : List Cell) :
    Expression.evalAll rules joined (cells.map .parameter) = cells := by
  induction cells with
  | nil => rfl
  | cons c cells ih => simp [Expression.evalAll, Expression.eval, ih]

end Sql

namespace Predicate

/-- What a database says of a predicate whose operands have these cells. -/
def truth (rules : TextRules) (cell : Term → Cell) : Predicate → Truth
  | always => some true
  | never => some false
  | and p q => (p.truth rules cell).and (q.truth rules cell)
  | or p q => (p.truth rules cell).or (q.truth rules cell)
  | not p => (p.truth rules cell).not
  | eq a b =>
    match Planning.comparedWithEmpty? a b with
    | some t => some (cell t).isNull
    | none => Comparison.equal.holds rules (cell a) (cell b)
  | ne a b =>
    match Planning.comparedWithEmpty? a b with
    | some t => some !(cell t).isNull
    | none => Comparison.notEqual.holds rules (cell a) (cell b)
  | lt a b => Comparison.less.holds rules (cell a) (cell b)
  | le a b => Comparison.lessOrEqual.holds rules (cell a) (cell b)
  | gt a b => Comparison.greater.holds rules (cell a) (cell b)
  | ge a b => Comparison.greaterOrEqual.holds rules (cell a) (cell b)
  | like t pattern ignoreCase =>
    if ignoreCase then
      Comparison.like.holds rules ((cell t).lowered rules) (.text (rules.lower pattern))
    else Comparison.like.holds rules (cell t) (.text pattern)
  | isIn t values => isAmong (cell t) (values.map Cell.bound)
  | isNull t expected => some ((cell t).isNull == expected)

/-- An operand that is compared with an empty constant is one of the two, and the other is that
constant. -/
theorem comparedWithEmpty_cases {a b t : Term} (h : Planning.comparedWithEmpty? a b = some t) :
    (t = a ∧ ∃ v, b = .const v ∧ v.isEmpty = true) ∨
      (t = b ∧ ∃ v, a = .const v ∧ v.isEmpty = true) := by
  unfold Planning.comparedWithEmpty? at h
  grind

/-- What a database says of a predicate depends only on the cells of its operands. -/
theorem truth_congr {rules : TextRules} {cell cell' : Term → Cell} {p : Predicate}
    (h : ∀ t ∈ p.terms, cell t = cell' t) : p.truth rules cell = p.truth rules cell' := by
  have hcompared {a b t : Term} (ht : Planning.comparedWithEmpty? a b = some t) : t ∈ [a, b] := by
    rcases comparedWithEmpty_cases ht with ⟨rfl, -⟩ | ⟨rfl, -⟩ <;> simp
  induction p with
  | always | never => rfl
  | and p q ihp ihq | or p q ihp ihq =>
    have hp := ihp fun t ht => h t (List.mem_append_left _ ht)
    have hq := ihq fun t ht => h t (List.mem_append_right _ ht)
    rw [truth, truth, hp, hq]
  | not p ih => rw [truth, truth, ih h]
  | eq a b | ne a b =>
    have ha := h a (by simp [terms])
    have hb := h b (by simp [terms])
    unfold truth
    split
    · rename_i t ht
      rw [h t (hcompared ht)]
    · rw [ha, hb]
  | lt a b | le a b | gt a b | ge a b =>
    have ha := h a (by simp [terms])
    have hb := h b (by simp [terms])
    rw [truth, truth, ha, hb]
  | like t | isIn t | isNull t =>
    have ht := h t (by simp [terms])
    simp only [truth, ht]

section Translation

variable {r : TableRegistry} {n : TableNode} {place : Place} (rules : TextRules)
  (joined : JoinedRow)

theorem expression_of_operand {t : Term} {f : Fault} {e : Expression}
    (h : (match Planning.expression? r n place t with
      | some e => Except.ok e
      | none => .error f) = .ok e) : Planning.expression? r n place t = some e := by
  split at h
  · cases h
    assumption
  · cases h

variable {rules joined} in
/-- An operand that is translated has in every row the cell of its expression. -/
theorem eval_of_operand {t : Term} {f : Fault} {e : Expression}
    (h : (match Planning.expression? r n place t with
      | some e => Except.ok e
      | none => .error f) = .ok e) :
    e.eval rules joined = operandCell r n place rules joined t := by
  simp only [operandCell, expression_of_operand h]

/-- The condition of a predicate has in every row the truth value of the predicate. -/
theorem condition_eval {p : Predicate} {c : Condition}
    (h : Planning.condition r n place p = .ok c) :
    c.eval rules joined = p.truth rules (operandCell r n place rules joined) := by
  induction p generalizing c with
  | always => cases h; rfl
  | never => cases h; rfl
  | and p q ihp ihq =>
    simp only [Planning.condition, bind_eq_ok, pure_eq_ok] at h
    obtain ⟨left, hleft, right, hright, rfl⟩ := h
    simp [truth, Condition.eval, Expression.eval, ihp hleft, ihq hright]
  | or p q ihp ihq =>
    simp only [Planning.condition, bind_eq_ok, pure_eq_ok] at h
    obtain ⟨left, hleft, right, hright, rfl⟩ := h
    simp [truth, Condition.eval, Expression.eval, ihp hleft, ihq hright]
  | not p ih =>
    simp only [Planning.condition, bind_eq_ok, pure_eq_ok] at h
    obtain ⟨inner, hinner, rfl⟩ := h
    simp [truth, Condition.eval, Expression.eval, ih hinner]
  | eq a b | ne a b =>
    simp only [Planning.condition] at h
    split at h <;> simp only [bind_eq_ok, pure_eq_ok] at h
    · obtain ⟨e, he, rfl⟩ := h
      simp [truth, Condition.eval, Expression.eval, eval_of_operand he, *]
    · obtain ⟨left, hleft, right, hright, rfl⟩ := h
      simp [truth, Condition.eval, Expression.eval, eval_of_operand hleft,
        eval_of_operand hright, *]
  | lt a b | le a b | gt a b | ge a b =>
    simp only [Planning.condition, bind_eq_ok, pure_eq_ok] at h
    obtain ⟨left, hleft, right, hright, rfl⟩ := h
    simp [truth, Condition.eval, Expression.eval, eval_of_operand hleft, eval_of_operand hright]
  | like t pattern ignoreCase =>
    simp only [Planning.condition, bind_eq_ok, pure_eq_ok] at h
    obtain ⟨e, he, rfl⟩ := h
    cases ignoreCase with
    | false => simp [truth, Condition.eval, Expression.eval, eval_of_operand he]
    | true =>
      simp only [truth, Condition.eval, Expression.eval, eval_of_operand he, if_true,
        Cell.truth_ofTruth]
      rfl
  | isIn t values =>
    simp only [Planning.condition] at h
    split at h
    · cases h
    · rename_i cells hcells
      simp only [bind_eq_ok, pure_eq_ok] at h
      obtain ⟨e, he, rfl⟩ := h
      simp only [truth, Condition.eval, Expression.eval, eval_of_operand he, evalAll_parameters,
        Cell.truth_ofTruth]
      rw [Cell.mapM_ofValue hcells]
  | isNull t expected =>
    cases expected <;> simp only [Planning.condition, bind_eq_ok, pure_eq_ok] at h <;>
      obtain ⟨e, he, rfl⟩ := h <;>
      simp [truth, Condition.eval, Expression.eval, eval_of_operand he]

theorem expression_of_empty {v : Value} (h : v.isEmpty = true) :
    Planning.expression? r n place (.const v) = some (.parameter .null) := by
  rcases (Value.isEmpty_iff v).1 h with rfl | rfl <;> rfl

/-- Every operand of a predicate that is translated can be said over the node's table. -/
theorem expression_of_condition {p : Predicate} {c : Condition}
    (h : Planning.condition r n place p = .ok c) {t : Term} (ht : t ∈ p.terms) :
    ∃ e, Planning.expression? r n place t = some e := by
  induction p generalizing c with
  | always | never => simp [terms] at ht
  | and p q ihp ihq | or p q ihp ihq =>
    simp only [Planning.condition, bind_eq_ok] at h
    obtain ⟨left, hleft, right, hright, -⟩ := h
    rcases List.mem_append.1 ht with ht | ht
    · exact ihp hleft ht
    · exact ihq hright ht
  | not p ih =>
    simp only [Planning.condition, bind_eq_ok] at h
    obtain ⟨inner, hinner, -⟩ := h
    exact ih hinner ht
  | eq a b | ne a b =>
    simp only [terms, List.mem_cons, List.not_mem_nil, or_false] at ht
    simp only [Planning.condition] at h
    split at h <;> simp only [bind_eq_ok] at h
    · rename_i u hu
      obtain ⟨e, he, -⟩ := h
      have hsaid := expression_of_operand he
      rcases comparedWithEmpty_cases hu with ⟨rfl, v, rfl, hv⟩ | ⟨rfl, v, rfl, hv⟩ <;>
        rcases ht with rfl | rfl <;> first | exact ⟨_, hsaid⟩ | exact ⟨_, expression_of_empty hv⟩
    · obtain ⟨left, hleft, right, hright, -⟩ := h
      rcases ht with rfl | rfl
      · exact ⟨_, expression_of_operand hleft⟩
      · exact ⟨_, expression_of_operand hright⟩
  | lt a b | le a b | gt a b | ge a b =>
    simp only [terms, List.mem_cons, List.not_mem_nil, or_false] at ht
    simp only [Planning.condition, bind_eq_ok] at h
    obtain ⟨left, hleft, right, hright, -⟩ := h
    rcases ht with rfl | rfl
    · exact ⟨_, expression_of_operand hleft⟩
    · exact ⟨_, expression_of_operand hright⟩
  | like u pattern ignoreCase =>
    simp only [terms, List.mem_singleton] at ht
    subst ht
    simp only [Planning.condition, bind_eq_ok] at h
    obtain ⟨e, he, -⟩ := h
    exact ⟨_, expression_of_operand he⟩
  | isIn u values =>
    simp only [terms, List.mem_singleton] at ht
    subst ht
    simp only [Planning.condition] at h
    split at h
    · cases h
    · simp only [bind_eq_ok] at h
      obtain ⟨e, he, -⟩ := h
      exact ⟨_, expression_of_operand he⟩
  | isNull u expected =>
    simp only [terms, List.mem_singleton] at ht
    subst ht
    cases expected <;> simp only [Planning.condition, bind_eq_ok] at h <;>
      obtain ⟨e, he, -⟩ := h <;> exact ⟨_, expression_of_operand he⟩

end Translation

end Predicate

end MappedQuery
