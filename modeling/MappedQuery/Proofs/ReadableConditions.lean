import MappedQuery.Proofs.PredicateTruth
import MappedQuery.Proofs.WrittenText

/-!
# Reading conditions back

The text of a condition and the values that are bound to it determine the condition, whatever its
names and values are: two conditions that are written alike are the same `Clause`. A clause leaves
out what is not written. It has no wrappers, a table goes by the name that its columns are qualified
with, and a choice among nothing is the clause that never holds. The texts of operands, tests and
clauses are cancelled from longer texts one by one; a quote or a point cannot follow an operand, so
it is plain where its names end.
-/
namespace MappedQuery.Sql

/-- What a test compares. -/
inductive Operand where
  | column (qualifier? : Option String) (name : String)
  | parameter (c : Cell)
  | lower (o : Operand)
deriving DecidableEq, Repr

/-- What is said of an operand. -/
inductive Test where
  | compare (op : Comparison) (right : Operand)
  | isIn (first : Cell) (rest : List Cell)
  | isNull
  | isNotNull
deriving DecidableEq, Repr

inductive Connective where
  | and
  | or
deriving DecidableEq, Repr

/-- A condition without wrappers. -/
inductive Clause where
  | test (left : Operand) (t : Test)
  | both (k : Connective) (left right : Clause)
  | not (c : Clause)
  | always
  | never
deriving DecidableEq, Repr

def Expression.operand? : Expression → Option Operand
  | .column c => some (.column (c.table?.map Table.reference) c.name)
  | .parameter c => some (.parameter c)
  | .lower e => e.operand?.map .lower
  | _ => none

def Expression.cell? : Expression → Option Cell
  | .parameter c => some c
  | _ => none

mutual

/-- The clause of an expression, none if it is neither a condition nor a test of operands. -/
def Expression.clause? : Expression → Option Clause
  | .compare op left right => do return .test (← left.operand?) (.compare op (← right.operand?))
  | .isIn e [] => e.operand?.map fun _ => .never
  | .isIn e (c :: cs) => do
    return .test (← e.operand?) (.isIn (← c.cell?) (← cs.mapM Expression.cell?))
  | .isNull e => e.operand?.map fun o => .test o .isNull
  | .isNotNull e => e.operand?.map fun o => .test o .isNotNull
  | .condition c => c.clause?
  | .column _ => none
  | .parameter _ => none
  | .lower _ => none

/-- The clause of a condition over tests of operands. -/
def Condition.clause? : Condition → Option Clause
  | .and left right => do return .both .and (← left.clause?) (← right.clause?)
  | .or left right => do return .both .or (← left.clause?) (← right.clause?)
  | .not e => e.clause?.map .not
  | .single e => e.clause?
  | .always => some .always
  | .never => some .never

end

/-! ## The text of clauses -/

def nameChars (name : String) : List Char := quote :: (escape name.toList ++ [quote])

namespace Operand

def chars : Operand → List Char
  | column (some qualifier) name => nameChars qualifier ++ '.' :: nameChars name
  | column none name => nameChars name
  | parameter _ => ['?']
  | lower o => ['L', 'O', 'W', 'E', 'R', '('] ++ (o.chars ++ [')'])

def parameters : Operand → List Cell
  | column _ _ => []
  | parameter c => [c]
  | lower o => o.parameters

end Operand

namespace Test

def chars : Test → List Char
  | compare op right => ' ' :: (op.text.toList ++ ' ' :: right.chars)
  | isIn _ rest => [' ', 'I', 'N', ' ', '(', '?'] ++ (rest.flatMap (fun _ => [',', '?']) ++ [')'])
  | isNull => [' ', 'I', 'S', ' ', 'N', 'U', 'L', 'L']
  | isNotNull => [' ', 'I', 'S', ' ', 'N', 'O', 'T', ' ', 'N', 'U', 'L', 'L']

def parameters : Test → List Cell
  | compare _ right => right.parameters
  | isIn first rest => first :: rest
  | isNull => []
  | isNotNull => []

end Test

def Connective.chars : Connective → List Char
  | and => [' ', 'A', 'N', 'D', ' ']
  | or => [' ', 'O', 'R', ' ']

namespace Clause

def chars : Clause → List Char
  | test left t => left.chars ++ t.chars
  | both k left right => '(' :: (left.chars ++ (k.chars ++ (right.chars ++ [')'])))
  | not c => '(' :: 'N' :: 'O' :: 'T' :: ' ' :: (c.chars ++ [')'])
  | always => ['1', '=', '1']
  | never => ['1', '=', '0']

def parameters : Clause → List Cell
  | test left t => left.parameters ++ t.parameters
  | both _ left right => left.parameters ++ right.parameters
  | not c => c.parameters
  | always => []
  | never => []

end Clause

/-! ## Cancelling -/

section Cancelling

variable {r s : List Char} {p q : List Cell}

/-- A name ends at the first quote that does not stand before another. -/
theorem escape_append_inj (hr : r.head? ≠ some quote) (hs : s.head? ≠ some quote) :
    ∀ {cs ds : List Char}, escape cs ++ quote :: r = escape ds ++ quote :: s → cs = ds ∧ r = s
  | [], [], h => ⟨rfl, (List.cons.inj h).2⟩
  | [], d :: ds, h => by
    by_cases hd : d = quote
    · rw [escape_quote hd] at h
      exact absurd (congrArg List.head? (List.cons.inj h).2) hr
    · rw [escape_of_ne hd] at h
      exact absurd (List.cons.inj h).1.symm hd
  | c :: cs, [], h => by
    by_cases hc : c = quote
    · rw [escape_quote hc] at h
      exact absurd (congrArg List.head? (List.cons.inj h).2).symm hs
    · rw [escape_of_ne hc] at h
      exact absurd (List.cons.inj h).1 hc
  | c :: cs, d :: ds, h => by
    by_cases hc : c = quote <;> by_cases hd : d = quote
    · rw [escape_quote hc, escape_quote hd] at h
      obtain ⟨hrest, hsame⟩ := escape_append_inj hr hs (List.cons.inj (List.cons.inj h).2).2
      exact ⟨by rw [hc, hd, hrest], hsame⟩
    · rw [escape_quote hc, escape_of_ne hd] at h
      exact absurd (List.cons.inj h).1.symm hd
    · rw [escape_of_ne hc, escape_quote hd] at h
      exact absurd (List.cons.inj h).1 hc
    · rw [escape_of_ne hc, escape_of_ne hd] at h
      obtain ⟨hrest, hsame⟩ := escape_append_inj hr hs (List.cons.inj h).2
      exact ⟨by rw [(List.cons.inj h).1, hrest], hsame⟩

theorem nameChars_append_inj {m n : String} (hr : r.head? ≠ some quote)
    (hs : s.head? ≠ some quote) (h : nameChars m ++ r = nameChars n ++ s) : m = n ∧ r = s := by
  have hbody : escape m.toList ++ quote :: r = escape n.toList ++ quote :: s := by
    simpa [nameChars] using h
  obtain ⟨hname, hsame⟩ := escape_append_inj hr hs hbody
  exact ⟨String.toList_inj.1 hname, hsame⟩

/-- What may follow an operand. -/
def Stops (r : List Char) : Prop := r.head? ≠ some quote ∧ r.head? ≠ some '.'

theorem stops_nil : Stops [] := ⟨nofun, nofun⟩

theorem stops_cons {c : Char} (h : c ≠ quote ∧ c ≠ '.') : Stops (c :: r) :=
  ⟨fun heq => h.1 (Option.some.inj heq), fun heq => h.2 (Option.some.inj heq)⟩

namespace Operand

variable {a b : Operand}

/-- An operand starts with a quote, a question mark or a letter that is no N. -/
theorem chars_append_ne {c : Char} (hc : c = '(' ∨ c = '1' ∨ c = 'N') (a : Operand) :
    a.chars ++ r ≠ c :: s := by
  intro h
  have hquote : quote ≠ '(' ∧ quote ≠ '1' ∧ quote ≠ 'N' := by decide
  cases a with
  | column qualifier? name =>
    cases qualifier? <;> simp only [chars, nameChars, List.cons_append, List.cons.injEq] at h <;>
      rcases hc with rfl | rfl | rfl <;> simp_all
  | parameter v => rcases hc with rfl | rfl | rfl <;> simp [chars] at h
  | lower o => rcases hc with rfl | rfl | rfl <;> simp [chars] at h

theorem column_append_inj {qualifier? qualifier'? : Option String} {name name' : String}
    (hr : Stops r) (hs : Stops s)
    (h : (column qualifier? name).chars ++ r = (column qualifier'? name').chars ++ s) :
    column qualifier? name = column qualifier'? name' ∧ r = s := by
  have hpoint {n : String} {cs : List Char} : ('.' :: (nameChars n ++ cs)).head? ≠ some quote :=
    by simp [quote]
  cases qualifier? with
  | none =>
    cases qualifier'? with
    | none =>
      obtain ⟨rfl, rfl⟩ := nameChars_append_inj hr.1 hs.1 h
      exact ⟨rfl, rfl⟩
    | some qualifier' =>
      simp only [chars, List.append_assoc, List.cons_append] at h
      obtain ⟨-, rfl⟩ := nameChars_append_inj hr.1 hpoint h
      exact absurd rfl hr.2
  | some qualifier =>
    cases qualifier'? with
    | none =>
      simp only [chars, List.append_assoc, List.cons_append] at h
      obtain ⟨-, rfl⟩ := nameChars_append_inj hpoint hs.1 h
      exact absurd rfl hs.2
    | some qualifier' =>
      simp only [chars, List.append_assoc, List.cons_append] at h
      obtain ⟨rfl, hrest⟩ := nameChars_append_inj hpoint hpoint h
      obtain ⟨rfl, rfl⟩ := nameChars_append_inj hr.1 hs.1 (List.cons.inj hrest).2
      exact ⟨rfl, rfl⟩

/-- A column starts with a quote. -/
theorem column_append_ne {qualifier? : Option String} {name : String} {c : Char}
    (hc : c ≠ quote) : (column qualifier? name).chars ++ r ≠ c :: s := by
  intro h
  cases qualifier? <;> exact hc (List.cons.inj h).1.symm

theorem append_inj (hr : Stops r) (hs : Stops s) (h : a.chars ++ r = b.chars ++ s)
    (hp : a.parameters ++ p = b.parameters ++ q) : a = b ∧ r = s ∧ p = q := by
  induction a generalizing b r s with
  | column qualifier? name =>
    cases b with
    | column qualifier'? name' =>
      obtain ⟨hsame, hrest⟩ := column_append_inj hr hs h
      exact ⟨hsame, hrest, hp⟩
    | parameter c => exact absurd h (column_append_ne (by decide))
    | lower o => exact absurd h (column_append_ne (by decide))
  | parameter c =>
    cases b with
    | column => exact absurd h.symm (column_append_ne (by decide))
    | parameter c' =>
      cases hp
      exact ⟨rfl, (List.cons.inj h).2, rfl⟩
    | lower o => simp [chars] at h
  | lower o ih =>
    cases b with
    | column => exact absurd h.symm (column_append_ne (by decide))
    | parameter c => simp [chars] at h
    | lower o' =>
      simp only [chars, List.append_assoc, List.append_cancel_left_eq] at h
      obtain ⟨rfl, hrest, rfl⟩ := ih (stops_cons (by decide)) (stops_cons (by decide)) h hp
      exact ⟨rfl, (List.cons.inj hrest).2, rfl⟩

end Operand

theorem Comparison.text_append_inj {op op' : Comparison}
    (h : op.text.toList ++ ' ' :: r = op'.text.toList ++ ' ' :: s) : op = op' ∧ r = s := by
  cases op <;> cases op' <;> simp [Comparison.text] at h <;> exact ⟨rfl, h⟩

namespace Test

variable {a b : Test}

/-- A test starts with a blank. -/
theorem stops (a : Test) (r : List Char) : Stops (a.chars ++ r) := by
  cases a <;> exact stops_cons (by decide)

theorem choices_append_inj : ∀ {cs ds : List Cell},
    cs.flatMap (fun _ => [',', '?']) ++ ')' :: r = ds.flatMap (fun _ => [',', '?']) ++ ')' :: s →
      cs ++ p = ds ++ q → cs = ds ∧ r = s ∧ p = q
  | [], [], h, hp => ⟨rfl, (List.cons.inj h).2, hp⟩
  | [], d :: ds, h, _ => by simp at h
  | c :: cs, [], h, _ => by simp at h
  | c :: cs, d :: ds, h, hp => by
    obtain ⟨hvalue, hvalues⟩ := List.cons.inj hp
    have hrest := (List.cons.inj (List.cons.inj h).2).2
    obtain ⟨htail, hsame⟩ := choices_append_inj hrest hvalues
    exact ⟨by rw [hvalue, htail], hsame⟩

theorem append_inj (hr : Stops r) (hs : Stops s) (h : a.chars ++ r = b.chars ++ s)
    (hp : a.parameters ++ p = b.parameters ++ q) : a = b ∧ r = s ∧ p = q := by
  cases a with
  | compare op right =>
    cases b with
    | compare op' right' =>
      simp only [chars, List.cons_append, List.append_assoc, List.cons.injEq, true_and] at h
      obtain ⟨rfl, hright⟩ := Comparison.text_append_inj h
      obtain ⟨rfl, hsame⟩ := Operand.append_inj hr hs hright hp
      exact ⟨rfl, hsame⟩
    | isIn | isNull | isNotNull => cases op <;> simp [chars, Comparison.text] at h
  | isIn first rest =>
    cases b with
    | isIn first' rest' =>
      simp only [chars, List.append_assoc, List.append_cancel_left_eq] at h
      obtain ⟨hfirst, hp⟩ := List.cons.inj hp
      obtain ⟨hrest, hsame⟩ := choices_append_inj h hp
      exact ⟨by rw [hfirst, hrest], hsame⟩
    | compare op right => cases op <;> simp [chars, Comparison.text] at h
    | isNull | isNotNull => simp [chars] at h
  | isNull =>
    cases b with
    | isNull => exact ⟨rfl, List.append_cancel_left h, hp⟩
    | compare op right => cases op <;> simp [chars, Comparison.text] at h
    | isIn | isNotNull => simp [chars] at h
  | isNotNull =>
    cases b with
    | isNotNull => exact ⟨rfl, List.append_cancel_left h, hp⟩
    | compare op right => cases op <;> simp [chars, Comparison.text] at h
    | isIn | isNull => simp [chars] at h

end Test

theorem Connective.stops (k : Connective) (r : List Char) : Stops (k.chars ++ r) := by
  cases k <;> exact stops_cons (by decide)

theorem Connective.append_inj {k k' : Connective} (h : k.chars ++ r = k'.chars ++ s) :
    k = k' ∧ r = s := by
  cases k <;> cases k' <;> simp [chars] at h <;> exact ⟨rfl, h⟩

namespace Clause

variable {a b : Clause}

theorem chars_both_append (k : Connective) (left right : Clause) (r : List Char) :
    (both k left right).chars ++ r =
      '(' :: (left.chars ++ (k.chars ++ (right.chars ++ ')' :: r))) := by
  simp [chars]

theorem chars_not_append (c : Clause) (r : List Char) :
    (not c).chars ++ r = '(' :: 'N' :: 'O' :: 'T' :: ' ' :: (c.chars ++ ')' :: r) := by
  simp [chars]

/-- A test starts with neither a bracket nor a number. -/
theorem test_append_ne {left : Operand} {t : Test} {c : Char} (hc : c = '(' ∨ c = '1') :
    (test left t).chars ++ r ≠ c :: s := by
  rw [chars, List.append_assoc]
  exact left.chars_append_ne (hc.imp_right .inl)

/-- No clause starts with an N. -/
theorem chars_append_ne (a : Clause) : a.chars ++ r ≠ 'N' :: s := by
  cases a with
  | test left t =>
    rw [chars, List.append_assoc]
    exact left.chars_append_ne (.inr (.inr rfl))
  | both | not | always | never => exact fun h => absurd (List.cons.inj h).1 (by decide)

theorem both_append_ne_not {k : Connective} {left right c : Clause} :
    (both k left right).chars ++ r ≠ (not c).chars ++ s := by
  rw [chars_both_append, chars_not_append]
  exact fun h => left.chars_append_ne (List.cons.inj h).2

theorem stops_bracket (r : List Char) : Stops (')' :: r) := stops_cons (by decide)

/-- The text of a clause and its values can be taken off the front of longer ones in one way
only. -/
theorem append_inj (hr : Stops r) (hs : Stops s) (h : a.chars ++ r = b.chars ++ s)
    (hp : a.parameters ++ p = b.parameters ++ q) : a = b ∧ r = s ∧ p = q := by
  induction a generalizing b r s p q with
  | test left t =>
    cases b with
    | test left' t' =>
      simp only [chars, parameters, List.append_assoc] at h hp
      obtain ⟨rfl, htest, hvalues⟩ := Operand.append_inj (t.stops r) (t'.stops s) h hp
      obtain ⟨rfl, hsame⟩ := Test.append_inj hr hs htest hvalues
      exact ⟨rfl, hsame⟩
    | both | not => exact absurd h (test_append_ne (.inl rfl))
    | always | never => exact absurd h (test_append_ne (.inr rfl))
  | both k left right ihl ihr =>
    cases b with
    | both k' left' right' =>
      rw [chars_both_append, chars_both_append] at h
      simp only [parameters, List.append_assoc] at hp
      obtain ⟨rfl, hrest, hvalues⟩ := ihl (k.stops _) (k'.stops _) (List.cons.inj h).2 hp
      obtain ⟨rfl, hright⟩ := Connective.append_inj hrest
      obtain ⟨rfl, hsame, rfl⟩ := ihr (stops_bracket r) (stops_bracket s) hright hvalues
      exact ⟨rfl, (List.cons.inj hsame).2, rfl⟩
    | not => exact absurd h both_append_ne_not
    | test => exact absurd h.symm (test_append_ne (.inl rfl))
    | always | never => exact absurd (List.cons.inj h).1 (by decide)
  | not c ih =>
    cases b with
    | not c' =>
      rw [chars_not_append, chars_not_append] at h
      simp only [List.cons.injEq, true_and] at h
      obtain ⟨rfl, hsame, rfl⟩ := ih (stops_bracket r) (stops_bracket s) h hp
      exact ⟨rfl, (List.cons.inj hsame).2, rfl⟩
    | both => exact absurd h.symm both_append_ne_not
    | test => exact absurd h.symm (test_append_ne (.inl rfl))
    | always | never => exact absurd (List.cons.inj h).1 (by decide)
  | always =>
    cases b with
    | always => exact ⟨rfl, List.append_cancel_left h, hp⟩
    | never => simp [chars] at h
    | test => exact absurd h.symm (test_append_ne (.inr rfl))
    | both | not => exact absurd (List.cons.inj h).1 (by decide)
  | never =>
    cases b with
    | never => exact ⟨rfl, List.append_cancel_left h, hp⟩
    | always => simp [chars] at h
    | test => exact absurd h.symm (test_append_ne (.inr rfl))
    | both | not => exact absurd (List.cons.inj h).1 (by decide)

end Clause

end Cancelling

/-! ## Conditions with a clause -/

-- The equations are derived here, once, and not by each of the proofs below at the same time.
attribute [local simp] Expression.clause? Condition.clause?

theorem Expression.text_of_operand : ∀ {e : Expression} {o : Operand}, e.operand? = some o →
    (e.text placeholder).toList = o.chars ∧ e.parameters = o.parameters
  | .column ⟨some t, name⟩, o, h => by
    cases h
    refine ⟨?_, rfl⟩
    simp [Expression.text, Column.text, toList_quoteName, Operand.chars, nameChars]
  | .column ⟨none, name⟩, o, h => by
    cases h
    exact ⟨toList_quoteName name, rfl⟩
  | .parameter c, o, h => by
    cases h
    exact ⟨toList_placeholder c, rfl⟩
  | .lower e, o, h => by
    obtain ⟨inner, hinner, rfl⟩ := Option.map_eq_some_iff.1 h
    obtain ⟨htext, hvalues⟩ := Expression.text_of_operand hinner
    refine ⟨?_, hvalues⟩
    simp [Expression.text, String.toList_append, htext, Operand.chars]

/-- The text and the values of choices among parameters. -/
theorem Expression.texts_of_cells : ∀ {es : List Expression} {cells : List Cell},
    es.mapM Expression.cell? = some cells →
      Expression.texts placeholder es = cells.map (fun _ => "?") ∧
        Expression.parametersAll es = cells
  | [], cells, h => by
    cases h
    exact ⟨rfl, rfl⟩
  | e :: rest, cells, h => by
    rw [List.mapM_cons] at h
    obtain ⟨c, hc, h⟩ := Option.bind_eq_some_iff.1 h
    obtain ⟨others, hothers, h⟩ := Option.bind_eq_some_iff.1 h
    cases h
    obtain ⟨htexts, hvalues⟩ := Expression.texts_of_cells hothers
    cases e with
    | parameter c' =>
      cases hc
      exact ⟨congrArg ("?" :: ·) htexts, congrArg (c :: ·) hvalues⟩
    | column | lower | compare | isIn | isNull | isNotNull | condition => cases hc

theorem toList_choices (c : Cell) (cells : List Cell) :
    (String.intercalate "," ((c :: cells).map fun _ => "?")).toList =
      '?' :: cells.flatMap fun _ => [',', '?'] := by
  induction cells generalizing c with
  | nil => simp
  | cons c' cells ih =>
    rw [List.map_cons, String.intercalate_cons_of_ne_nil (by simp), String.toList_append, ih]
    simp

mutual

theorem Expression.text_of_clause : ∀ {e : Expression} {a : Clause}, e.clause? = some a →
    (e.text placeholder).toList = a.chars ∧ e.parameters = a.parameters
  | .compare op left right, a, h => by
    obtain ⟨o, ho, h⟩ := Option.bind_eq_some_iff.1 h
    obtain ⟨o', ho', h⟩ := Option.bind_eq_some_iff.1 h
    cases h
    obtain ⟨hleft, hvalues⟩ := Expression.text_of_operand ho
    obtain ⟨hright, hvalues'⟩ := Expression.text_of_operand ho'
    constructor
    · simp [Expression.text, String.toList_append, hleft, hright, Clause.chars, Test.chars]
    · rw [Expression.parameters, hvalues, hvalues']
      rfl
  | .isIn e [], a, h => by
    obtain ⟨o, -, rfl⟩ := Option.map_eq_some_iff.1 h
    refine ⟨?_, rfl⟩
    rw [Expression.text]
    decide
  | .isIn e (c :: cs), a, h => by
    obtain ⟨o, ho, h⟩ := Option.bind_eq_some_iff.1 h
    obtain ⟨first, hfirst, h⟩ := Option.bind_eq_some_iff.1 h
    obtain ⟨rest, hrest, h⟩ := Option.bind_eq_some_iff.1 h
    cases h
    have hcells : (c :: cs).mapM Expression.cell? = some (first :: rest) := by
      rw [List.mapM_cons, hfirst, hrest]
      rfl
    obtain ⟨htext, hvalues⟩ := Expression.text_of_operand ho
    obtain ⟨hchoices, hcells⟩ := Expression.texts_of_cells hcells
    constructor
    · simp only [Expression.text, String.toList_append, htext, hchoices, toList_choices,
        Clause.chars, Test.chars]
      simp
    · rw [Expression.parameters, hvalues, hcells]
      rfl
  | .isNull e, a, h | .isNotNull e, a, h => by
    obtain ⟨o, ho, rfl⟩ := Option.map_eq_some_iff.1 h
    obtain ⟨htext, hvalues⟩ := Expression.text_of_operand ho
    constructor
    · simp [Expression.text, String.toList_append, htext, Clause.chars, Test.chars]
    · rw [Expression.parameters, hvalues, Clause.parameters, Test.parameters, List.append_nil]
  | .condition c, a, h => Condition.text_of_clause h

theorem Condition.text_of_clause : ∀ {c : Condition} {a : Clause}, c.clause? = some a →
    (c.text placeholder).toList = a.chars ∧ c.parameters = a.parameters
  | .and left right, a, h | .or left right, a, h => by
    obtain ⟨b, hb, h⟩ := Option.bind_eq_some_iff.1 h
    obtain ⟨b', hb', h⟩ := Option.bind_eq_some_iff.1 h
    cases h
    obtain ⟨hleft, hvalues⟩ := Expression.text_of_clause hb
    obtain ⟨hright, hvalues'⟩ := Expression.text_of_clause hb'
    constructor
    · simp [Condition.text, String.toList_append, hleft, hright, Clause.chars, Connective.chars]
    · rw [Condition.parameters, hvalues, hvalues']
      rfl
  | .not e, a, h => by
    obtain ⟨b, hb, rfl⟩ := Option.map_eq_some_iff.1 h
    obtain ⟨htext, hvalues⟩ := Expression.text_of_clause hb
    refine ⟨?_, hvalues⟩
    simp [Condition.text, String.toList_append, htext, Clause.chars]
  | .single e, a, h => Expression.text_of_clause (e := e) h
  | .always, a, h => by
    cases h
    exact ⟨by decide, rfl⟩
  | .never, a, h => by
    cases h
    exact ⟨by decide, rfl⟩

end

/-- Two conditions over tests of operands are written alike, with the same values bound to them, if
and only if they have the same clause: neither a name nor a value can change how a condition
reads. -/
theorem Condition.written_alike_iff {c d : Condition} {a b : Clause} (hc : c.clause? = some a)
    (hd : d.clause? = some b) :
    (c.write placeholder).run [] = (d.write placeholder).run [] ↔ a = b := by
  have hrun : ∀ e : Condition,
      (e.write placeholder).run [] = (e.text placeholder, e.parameters) := fun e => by
    rw [Condition.write_eq]
    rfl
  obtain ⟨hctext, hcvalues⟩ := Condition.text_of_clause hc
  obtain ⟨hdtext, hdvalues⟩ := Condition.text_of_clause hd
  rw [hrun, hrun, Prod.mk.injEq, ← String.toList_inj, hctext, hdtext, hcvalues, hdvalues]
  constructor
  · rintro ⟨htext, hvalues⟩
    have hchars : a.chars ++ [] = b.chars ++ [] := congrArg (· ++ []) htext
    have hcells : a.parameters ++ [] = b.parameters ++ [] := congrArg (· ++ []) hvalues
    exact (Clause.append_inj stops_nil stops_nil hchars hcells).1
  · rintro rfl
    exact ⟨rfl, rfl⟩

/-- Quotes and a point in a name do not make two names of it. -/
theorem Condition.quotes_do_not_end_names :
    ((Condition.single (.isNull (.column ⟨some ⟨"t", some "a"⟩, "b"⟩))).write placeholder).run [] ≠
      ((Condition.single (.isNull (.column ⟨none, "a`.`b"⟩))).write placeholder).run [] := by
  intro h
  have hclauses : Clause.test (.column (some "a") "b") .isNull =
      .test (.column none "a`.`b") .isNull :=
    (Condition.written_alike_iff rfl rfl).1 h
  cases hclauses

end MappedQuery.Sql

/-! ## Conditions of plans -/

namespace MappedQuery.Predicate

open Sql

variable {r : TableRegistry} {n : TableNode} {place : Place}

theorem exists_operand {t : Term} {e : Expression}
    (h : Planning.expression? r n place t = some e) : ∃ o, e.operand? = some o := by
  unfold Planning.expression? at h
  split at h
  · split at h
    · cases h
      exact ⟨_, rfl⟩
    · cases h
  · split at h
    · split at h
      · cases h
        exact ⟨_, rfl⟩
      · cases h
    · cases h
  · cases h

section Tests

variable {left right : Expression} {o o' : Operand}

theorem clause_compare (op : Comparison) (hleft : left.operand? = some o)
    (hright : right.operand? = some o') :
    (Condition.single (.compare op left right)).clause? = some (.test o (.compare op o')) := by
  simp only [Condition.clause?, Expression.clause?, hleft, hright]
  rfl

theorem clause_isNull (hleft : left.operand? = some o) :
    (Condition.single (.isNull left)).clause? = some (.test o .isNull) := by
  simp only [Condition.clause?, Expression.clause?, hleft]
  rfl

theorem clause_isNotNull (hleft : left.operand? = some o) :
    (Condition.single (.isNotNull left)).clause? = some (.test o .isNotNull) := by
  simp only [Condition.clause?, Expression.clause?, hleft]
  rfl

theorem clause_isIn (hleft : left.operand? = some o) (first : Cell) (rest : List Cell) :
    (Condition.single (.isIn left ((first :: rest).map .parameter))).clause? =
      some (.test o (.isIn first rest)) := by
  have hcells : (rest.map Expression.parameter).mapM Expression.cell? = some rest := by
    induction rest with
    | nil => rfl
    | cons c rest ih =>
      rw [List.map_cons, List.mapM_cons, ih]
      rfl
  simp only [Condition.clause?, Expression.clause?, List.map_cons, hleft, hcells]
  rfl

theorem clause_isIn_nil (hleft : left.operand? = some o) :
    (Condition.single (.isIn left [])).clause? = some .never := by
  simp only [Condition.clause?, Expression.clause?, hleft]
  rfl

end Tests

/-- The condition of every predicate has a clause. -/
theorem exists_clause {p : Predicate} {c : Condition}
    (h : Planning.condition r n place p = .ok c) : ∃ a, c.clause? = some a := by
  induction p generalizing c with
  | always | never =>
    cases h
    exact ⟨_, rfl⟩
  | and p q ihp ihq | or p q ihp ihq =>
    simp only [Planning.condition, bind_eq_ok, pure_eq_ok] at h
    obtain ⟨left, hleft, right, hright, rfl⟩ := h
    obtain ⟨a, ha⟩ := ihp hleft
    obtain ⟨b, hb⟩ := ihq hright
    exact ⟨_, by simp only [Condition.clause?, Expression.clause?, ha, hb]; rfl⟩
  | not p ih =>
    simp only [Planning.condition, bind_eq_ok, pure_eq_ok] at h
    obtain ⟨inner, hinner, rfl⟩ := h
    obtain ⟨a, ha⟩ := ih hinner
    exact ⟨_, by simp only [Condition.clause?, Expression.clause?, ha]; rfl⟩
  | eq a b | ne a b =>
    simp only [Planning.condition] at h
    split at h <;> simp only [bind_eq_ok, pure_eq_ok] at h
    · obtain ⟨e, he, rfl⟩ := h
      obtain ⟨o, ho⟩ := exists_operand (expression_of_operand he)
      first | exact ⟨_, clause_isNull ho⟩ | exact ⟨_, clause_isNotNull ho⟩
    · obtain ⟨left, hleft, right, hright, rfl⟩ := h
      obtain ⟨o, ho⟩ := exists_operand (expression_of_operand hleft)
      obtain ⟨o', ho'⟩ := exists_operand (expression_of_operand hright)
      exact ⟨_, clause_compare _ ho ho'⟩
  | lt a b | le a b | gt a b | ge a b =>
    simp only [Planning.condition, bind_eq_ok, pure_eq_ok] at h
    obtain ⟨left, hleft, right, hright, rfl⟩ := h
    obtain ⟨o, ho⟩ := exists_operand (expression_of_operand hleft)
    obtain ⟨o', ho'⟩ := exists_operand (expression_of_operand hright)
    exact ⟨_, clause_compare _ ho ho'⟩
  | like t pattern ignoreCase =>
    simp only [Planning.condition, bind_eq_ok, pure_eq_ok] at h
    obtain ⟨e, he, rfl⟩ := h
    obtain ⟨o, ho⟩ := exists_operand (expression_of_operand he)
    cases ignoreCase with
    | false => exact ⟨_, clause_compare .like ho rfl⟩
    | true =>
      have hlower : e.lower.operand? = some o.lower := congrArg (Option.map Operand.lower) ho
      exact ⟨_, clause_compare .like hlower rfl⟩
  | isIn t values =>
    simp only [Planning.condition] at h
    split at h
    · cases h
    · rename_i cells hcells
      simp only [bind_eq_ok, pure_eq_ok] at h
      obtain ⟨e, he, rfl⟩ := h
      obtain ⟨o, ho⟩ := exists_operand (expression_of_operand he)
      cases cells with
      | nil => exact ⟨_, clause_isIn_nil ho⟩
      | cons first rest => exact ⟨_, clause_isIn ho first rest⟩
  | isNull t expected =>
    cases expected <;> simp only [Planning.condition, bind_eq_ok, pure_eq_ok] at h <;>
      obtain ⟨e, he, rfl⟩ := h <;> obtain ⟨o, ho⟩ := exists_operand (expression_of_operand he)
    · exact ⟨_, clause_isNotNull ho⟩
    · exact ⟨_, clause_isNull ho⟩

end MappedQuery.Predicate
