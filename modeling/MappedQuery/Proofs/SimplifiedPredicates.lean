import MappedQuery.Proofs.PushedFilters

/-!
# Predicates that are simplified as they are built

Conjunctions, disjunctions and negations lose trivial operands as they are built. What is built
still says what the plain connective of its operands says: in memory, where a predicate is true or
false of the entity at a cursor, and in a database, where its translation may also be unknown of a
row.
-/
namespace MappedQuery

open Sql

namespace Sql.Truth

variable (t u : Truth) (ts : List Truth)

/-- The conjunction of truth values: false if one of them is, else unknown if one of them is. -/
def all (ts : List Truth) : Truth :=
  if some false ∈ ts then some false else if none ∈ ts then none else some true

@[simp] theorem true_and : Truth.and (some true) t = t := by
  rcases t with _ | (_ | _) <;> rfl

@[simp] theorem and_true : Truth.and t (some true) = t := by
  rcases t with _ | (_ | _) <;> rfl

@[simp] theorem false_and : Truth.and (some false) t = some false := rfl

@[simp] theorem and_false : Truth.and t (some false) = some false := by
  rcases t with _ | (_ | _) <;> rfl

@[simp] theorem true_or : Truth.or (some true) t = some true := rfl

@[simp] theorem or_true : Truth.or t (some true) = some true := by
  rcases t with _ | (_ | _) <;> rfl

@[simp] theorem false_or : Truth.or (some false) t = t := by
  rcases t with _ | (_ | _) <;> rfl

@[simp] theorem or_false : Truth.or t (some false) = t := by
  rcases t with _ | (_ | _) <;> rfl

@[simp] theorem not_not : (Truth.not t).not = t := by
  rcases t with _ | (_ | _) <;> rfl

theorem all_singleton : all [t] = t := by
  rcases t with _ | (_ | _) <;> rfl

theorem all_true_cons : all (some true :: ts) = all ts := by simp [all]

theorem all_and_cons : all (Truth.and t u :: ts) = all (t :: u :: ts) := by
  rcases t with _ | (_ | _) <;> rcases u with _ | (_ | _) <;> simp [all, Truth.and]

end Sql.Truth

namespace Predicate

section Memory

variable {m : Mapping} {c : Cursor} {p q : Predicate} {a b : Bool}

theorem holds_and (hp : p.holds m c = .ok a) (hq : q.holds m c = .ok b) :
    (and p q).holds m c = .ok (a && b) := by
  rw [holds, hp]
  cases a with
  | true => exact hq
  | false => rfl

theorem holds_or (hp : p.holds m c = .ok a) (hq : q.holds m c = .ok b) :
    (or p q).holds m c = .ok (a || b) := by
  rw [holds, hp]
  cases a with
  | true => rfl
  | false => exact hq

/-- A conjunction holds as both of its operands do, whichever of them is dropped. -/
theorem holds_conj (hp : p.holds m c = .ok a) (hq : q.holds m c = .ok b) :
    (p.conj q).holds m c = .ok (a && b) := by
  unfold conj
  split
  · cases hp
    exact hq
  · cases hq
    rw [Bool.and_true]
    exact hp
  · cases hp
    rfl
  · cases hq
    rw [Bool.and_false]
    rfl
  · exact holds_and hp hq

theorem holds_disj (hp : p.holds m c = .ok a) (hq : q.holds m c = .ok b) :
    (p.disj q).holds m c = .ok (a || b) := by
  unfold disj
  split
  · cases hp
    exact hq
  · cases hq
    rw [Bool.or_false]
    exact hp
  · cases hp
    rfl
  · cases hq
    rw [Bool.or_true]
    rfl
  · exact holds_or hp hq

theorem holds_negation (hp : p.holds m c = .ok a) : p.negation.holds m c = .ok !a := by
  unfold negation
  split
  · cases hp
    rfl
  · cases hp
    rfl
  · simp only [holds, bind_eq_ok, pure_eq_ok] at hp
    obtain ⟨b, hb, rfl⟩ := hp
    rw [Bool.not_not]
    exact hb
  · rw [holds, hp]
    rfl

/-- Conjoining one after the other, from a predicate on. -/
theorem holds_foldl_conj {ps : List Predicate} {bs : List Bool} (hp : p.holds m c = .ok a)
    (h : List.Forall₂ (fun q b => q.holds m c = .ok b) ps bs) :
    (ps.foldl conj p).holds m c = .ok (a && bs.all id) := by
  induction h generalizing p a with
  | nil =>
    rw [List.all_nil, Bool.and_true]
    exact hp
  | cons hq _ ih =>
    rw [List.foldl_cons, ih (holds_conj hp hq), List.all_cons, id, Bool.and_assoc]

end Memory

section Database

variable (rules : TextRules) (cell : Term → Cell) (p q : Predicate)

theorem truth_conj :
    (p.conj q).truth rules cell = (p.truth rules cell).and (q.truth rules cell) := by
  unfold conj
  split <;> simp [truth]

theorem truth_disj :
    (p.disj q).truth rules cell = (p.truth rules cell).or (q.truth rules cell) := by
  unfold disj
  split <;> simp [truth]

theorem truth_negation : p.negation.truth rules cell = (p.truth rules cell).not := by
  unfold negation
  split
  · rfl
  · rfl
  · exact (Truth.not_not _).symm
  · rfl

theorem truth_foldl_conj (ps : List Predicate) :
    (ps.foldl conj p).truth rules cell =
      Truth.all (p.truth rules cell :: ps.map (·.truth rules cell)) := by
  induction ps generalizing p with
  | nil => exact (Truth.all_singleton _).symm
  | cons q ps ih => rw [List.foldl_cons, ih, truth_conj, Truth.all_and_cons, List.map_cons]

end Database

section Translation

variable {r : TableRegistry} {n : TableNode} {place : Place} {p q : Predicate}
  {cp cq : Condition}

theorem exists_condition_conj (hp : Planning.condition r n place p = .ok cp)
    (hq : Planning.condition r n place q = .ok cq) :
    ∃ d, Planning.condition r n place (p.conj q) = .ok d := by
  unfold conj
  split
  · exact ⟨cq, hq⟩
  · exact ⟨cp, hp⟩
  · exact ⟨.never, rfl⟩
  · exact ⟨.never, rfl⟩
  · rw [Planning.condition, hp, hq]
    exact ⟨_, rfl⟩

theorem exists_condition_disj (hp : Planning.condition r n place p = .ok cp)
    (hq : Planning.condition r n place q = .ok cq) :
    ∃ d, Planning.condition r n place (p.disj q) = .ok d := by
  unfold disj
  split
  · exact ⟨cq, hq⟩
  · exact ⟨cp, hp⟩
  · exact ⟨.always, rfl⟩
  · exact ⟨.always, rfl⟩
  · rw [Planning.condition, hp, hq]
    exact ⟨_, rfl⟩

theorem exists_condition_negation (hp : Planning.condition r n place p = .ok cp) :
    ∃ d, Planning.condition r n place p.negation = .ok d := by
  unfold negation
  split
  · exact ⟨.never, rfl⟩
  · exact ⟨.always, rfl⟩
  · simp only [Planning.condition, bind_eq_ok, pure_eq_ok] at hp
    obtain ⟨inner, hinner, -⟩ := hp
    exact ⟨inner, hinner⟩
  · rw [Planning.condition, hp]
    exact ⟨_, rfl⟩

theorem exists_condition_foldl_conj {ps : List Predicate} {cs : List Condition}
    (hp : Planning.condition r n place p = .ok cp)
    (h : List.Forall₂ (fun q d => Planning.condition r n place q = .ok d) ps cs) :
    ∃ d, Planning.condition r n place (ps.foldl conj p) = .ok d := by
  induction h generalizing p cp with
  | nil => exact ⟨cp, hp⟩
  | cons hq _ ih =>
    obtain ⟨d, hd⟩ := exists_condition_conj hp hq
    exact ih hd

/-- The translations of predicates have in every row the truth values of the predicates. -/
theorem map_eval_of_conditions (rules : TextRules) (joined : JoinedRow) {ps : List Predicate}
    {cs : List Condition}
    (h : List.Forall₂ (fun q d => Planning.condition r n place q = .ok d) ps cs) :
    cs.map (·.eval rules joined) =
      ps.map (·.truth rules (operandCell r n place rules joined)) := by
  induction h with
  | nil => rfl
  | cons hq _ ih => rw [List.map_cons, List.map_cons, ih, condition_eval rules joined hq]

end Translation

/-- What is built from predicates says what the plain connectives say. In memory it holds of an
entity as they do of the truth values of the operands. In a database it is translated where the
operands are, and its translation is true, false or unknown of a row as the three-valued
connectives are of the translations of the operands. -/
theorem built_predicates_keep_meaning :
    (∀ (m : Mapping) (c : Cursor) (p q : Predicate) (a b : Bool),
      p.holds m c = .ok a → q.holds m c = .ok b →
        (p.conj q).holds m c = .ok (a && b) ∧ (p.disj q).holds m c = .ok (a || b) ∧
        p.negation.holds m c = .ok !a) ∧
    (∀ (m : Mapping) (c : Cursor) (ps : List Predicate) (bs : List Bool),
      List.Forall₂ (fun p b => p.holds m c = .ok b) ps bs →
        (all ps).holds m c = .ok (bs.all id)) ∧
    (∀ (r : TableRegistry) (n : TableNode) (place : Place) (p q : Predicate)
      (cp cq : Condition), Planning.condition r n place p = .ok cp →
      Planning.condition r n place q = .ok cq →
        ∃ conjoined disjoined negated,
          Planning.condition r n place (p.conj q) = .ok conjoined ∧
          Planning.condition r n place (p.disj q) = .ok disjoined ∧
          Planning.condition r n place p.negation = .ok negated ∧
          ∀ (rules : TextRules) (joined : JoinedRow),
            conjoined.eval rules joined = (cp.eval rules joined).and (cq.eval rules joined) ∧
            disjoined.eval rules joined = (cp.eval rules joined).or (cq.eval rules joined) ∧
            negated.eval rules joined = (cp.eval rules joined).not) ∧
    ∀ (r : TableRegistry) (n : TableNode) (place : Place) (ps : List Predicate)
      (cs : List Condition),
      List.Forall₂ (fun p d => Planning.condition r n place p = .ok d) ps cs →
        ∃ conjoined, Planning.condition r n place (all ps) = .ok conjoined ∧
          ∀ (rules : TextRules) (joined : JoinedRow),
            conjoined.eval rules joined = Truth.all (cs.map (·.eval rules joined)) := by
  refine ⟨?_, ?_, ?_, ?_⟩
  · intro m c p q a b hp hq
    exact ⟨holds_conj hp hq, holds_disj hp hq, holds_negation hp⟩
  · intro m c ps bs h
    apply holds_foldl_conj (p := always) (a := true) _ h
    rfl
  · intro r n place p q cp cq hp hq
    obtain ⟨conjoined, hconjoined⟩ := exists_condition_conj hp hq
    obtain ⟨disjoined, hdisjoined⟩ := exists_condition_disj hp hq
    obtain ⟨negated, hnegated⟩ := exists_condition_negation hp
    refine ⟨conjoined, disjoined, negated, hconjoined, hdisjoined, hnegated, ?_⟩
    intro rules joined
    rw [condition_eval rules joined hp, condition_eval rules joined hq,
      condition_eval rules joined hconjoined, condition_eval rules joined hdisjoined,
      condition_eval rules joined hnegated]
    exact ⟨truth_conj .., truth_disj .., truth_negation ..⟩
  · intro r n place ps cs h
    have halways : Planning.condition r n place always = .ok .always := rfl
    obtain ⟨conjoined, hconjoined⟩ := exists_condition_foldl_conj halways h
    refine ⟨conjoined, hconjoined, ?_⟩
    intro rules joined
    rw [condition_eval rules joined hconjoined, truth_foldl_conj, truth, Truth.all_true_cons,
      map_eval_of_conditions rules joined h]

end Predicate

namespace People

def isAnn : Predicate := .eq (.field "name") (.const (.string "Ann"))

def hasName : Predicate := .isNull (.field "name") false

/-- Ann has a name that is not another one; of a person without a name a database can tell neither
that it is Ann's nor that it is not. -/
theorem nobody_may_be_ann :
    (isAnn.conj hasName).holds (.tables registry) (cursor (.text "Ann")) = .ok true ∧
    (Predicate.all [.always, hasName, isAnn.negation]).holds (.tables registry)
      (cursor (.text "Ann")) = .ok false ∧
    (∃ d, Planning.condition registry node ⟨0, ["people"], "Person"⟩ isAnn.negation.negation =
      .ok d ∧ d.eval .folding (row .null) = none) ∧
    ∃ d, Planning.condition registry node ⟨0, ["people"], "Person"⟩
      (Predicate.all [.always, isAnn.negation, hasName]) = .ok d ∧
      d.eval .folding (row .null) = some false := by
  obtain ⟨hmemory, hmemoryAll, htables, htablesAll⟩ := Predicate.built_predicates_keep_meaning
  have hann : isAnn.holds (.tables registry) (cursor (.text "Ann")) = .ok true := by rfl
  have hname : hasName.holds (.tables registry) (cursor (.text "Ann")) = .ok true := by rfl
  have hnotAnn := (hmemory _ _ _ _ _ _ hann hname).2.2
  refine ⟨(hmemory _ _ _ _ _ _ hann hname).1, ?_, ?_, ?_⟩
  · exact hmemoryAll _ _ [.always, hasName, isAnn.negation] [true, true, false]
      (.cons rfl (.cons hname (.cons hnotAnn .nil)))
  · obtain ⟨_, _, d, -, -, hd, heval⟩ :=
      htables registry node ⟨0, ["people"], "Person"⟩ isAnn.negation hasName _ _ rfl rfl
    exact ⟨d, hd, (heval .folding (row .null)).2.2⟩
  · obtain ⟨d, hd, heval⟩ := htablesAll registry node ⟨0, ["people"], "Person"⟩
      [.always, isAnn.negation, hasName] _ (.cons rfl (.cons rfl (.cons rfl .nil)))
    exact ⟨d, hd, heval .folding (row .null)⟩

end People

end MappedQuery
