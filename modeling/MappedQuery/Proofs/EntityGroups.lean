import Mathlib.Data.List.Basic
import Mathlib.Logic.Function.Basic
import MappedQuery.Cursor.Basic

/-!
# Entities by first appearance

`firstSeen` keeps the first of equal elements. Taking rows apart by keys only asks which keys
appear first, so it does not change if rows are repeated, or differ in columns that are not read:
two lists of rows that agree in the first appearances of what is read of them have the same
entities.
-/
namespace MappedQuery.Sql

section FirstSeen

variable {α β γ : Type} [DecidableEq α]

/-- The first of equal elements. -/
def firstSeen (l : List α) : List α := l.eraseDups

@[simp] theorem firstSeen_nil : firstSeen ([] : List α) = [] := rfl

theorem firstSeen_cons (a : α) (as : List α) :
    firstSeen (a :: as) = a :: firstSeen (as.filter fun b => !b == a) :=
  List.eraseDups_cons

@[simp] theorem mem_firstSeen {a : α} {l : List α} : a ∈ firstSeen l ↔ a ∈ l :=
  List.mem_eraseDups

/-- Induction that drops what equals the head from the tail. -/
theorem firstSeen_induction {motive : List α → Prop} (nil : motive [])
    (cons : ∀ a as, motive (as.filter fun b => !b == a) → motive (a :: as)) (l : List α) :
    motive l := by
  induction h : l.length using Nat.strongRecOn generalizing l with
  | ind n ih =>
    cases l with
    | nil => exact nil
    | cons a as =>
      have hlt : (as.filter fun b => !b == a).length < n := by
        have := List.length_filter_le (fun b => !b == a) as
        rw [List.length_cons] at h
        omega
      exact cons a as (ih _ hlt _ rfl)

theorem nodup_firstSeen (l : List α) : (firstSeen l).Nodup := by
  induction l using firstSeen_induction with
  | nil => exact List.nodup_nil
  | cons a as ih =>
    rw [firstSeen_cons, List.nodup_cons]
    constructor
    · simp
    · exact ih

theorem firstSeen_of_nodup {l : List α} (h : l.Nodup) : firstSeen l = l := by
  induction l with
  | nil => rfl
  | cons a as ih =>
    obtain ⟨ha, has⟩ := List.nodup_cons.1 h
    have hkeep : (as.filter fun b => !b == a) = as := by
      rw [List.filter_eq_self]
      intro b hb
      have hne : b ≠ a := fun heq => ha (heq ▸ hb)
      simpa using hne
    rw [firstSeen_cons, hkeep, ih has]

theorem head?_firstSeen (l : List α) : (firstSeen l).head? = l.head? := by
  cases l with
  | nil => rfl
  | cons a as => rw [firstSeen_cons]; rfl

theorem firstSeen_filter (p : α → Bool) (l : List α) :
    firstSeen (l.filter p) = (firstSeen l).filter p := by
  induction l using firstSeen_induction with
  | nil => rfl
  | cons a as ih =>
    have hcomm : (as.filter p).filter (fun b => !b == a) =
        (as.filter fun b => !b == a).filter p := by
      simp only [List.filter_filter, Bool.and_comm]
    rw [firstSeen_cons, List.filter_cons, List.filter_cons, ← ih]
    split
    · rw [firstSeen_cons, hcomm]
    · rename_i hp
      congr 1
      rw [← hcomm, eq_comm, List.filter_eq_self]
      intro b hb
      have hpb := (List.mem_filter.1 hb).2
      have hne : b ≠ a := fun heq => hp (heq ▸ hpb)
      simpa using hne

/-- What appeared before is not seen for the first time. -/
theorem firstSeen_append_of_subset {as bs : List α} (h : ∀ b ∈ bs, b ∈ as) :
    firstSeen (as ++ bs) = firstSeen as := by
  have hnone : bs.removeAll as = [] := by
    rw [List.removeAll, List.filter_eq_nil_iff]
    simpa using h
  rw [firstSeen, List.eraseDups_append, hnone, List.eraseDups_nil, List.append_nil]
  rfl

/-- A list that is repeated is seen once. -/
theorem firstSeen_flatMap_const {l : List β} (hl : l ≠ []) (as : List α) :
    firstSeen (l.flatMap fun _ => as) = firstSeen as := by
  cases l with
  | nil => exact absurd rfl hl
  | cons b l =>
    rw [List.flatMap_cons]
    refine firstSeen_append_of_subset fun a ha => ?_
    obtain ⟨-, -, ha⟩ := List.mem_flatMap.1 ha
    exact ha

/-- Elements that are repeated at once are seen once. -/
theorem firstSeen_flatMap {l : List β} {g : β → List α} {f : β → α} (hne : ∀ b ∈ l, g b ≠ [])
    (h : ∀ b ∈ l, ∀ a ∈ g b, a = f b) : firstSeen (l.flatMap g) = firstSeen (l.map f) := by
  induction l with
  | nil => rfl
  | cons b l ih =>
    have hrest := ih (fun c hc => hne c (List.mem_cons_of_mem _ hc))
      fun c hc => h c (List.mem_cons_of_mem _ hc)
    obtain ⟨a, as, hg⟩ := List.exists_cons_of_ne_nil (hne b List.mem_cons_self)
    have hsame : ∀ x ∈ a :: as, x = f b := hg ▸ h b List.mem_cons_self
    have hdropped : as.filter (fun x => !x == f b) = [] := by
      rw [List.filter_eq_nil_iff]
      intro x hx
      simp [hsame x (List.mem_cons_of_mem _ hx)]
    rw [List.flatMap_cons, hg, List.cons_append, List.map_cons, firstSeen_cons, firstSeen_cons,
      hsame a List.mem_cons_self, List.filter_append, hdropped, List.nil_append, firstSeen_filter,
      firstSeen_filter, hrest]

variable [DecidableEq β]

/-- Repeated elements add nothing to the first appearances of what is found in them. -/
theorem firstSeen_filterMap (f : α → Option β) (l : List α) :
    firstSeen ((firstSeen l).filterMap f) = firstSeen (l.filterMap f) := by
  induction l using firstSeen_induction with
  | nil => rfl
  | cons a as ih =>
    rw [firstSeen_cons]
    cases hfa : f a with
    | none =>
      rw [List.filterMap_cons_none hfa, List.filterMap_cons_none hfa, ih, List.filterMap_filter]
      congr 2
      funext b
      by_cases hb : b = a <;> simp [hb, hfa]
    | some b =>
      rw [List.filterMap_cons_some hfa, List.filterMap_cons_some hfa, firstSeen_cons,
        firstSeen_cons, firstSeen_filter, ih, ← firstSeen_filter, List.filterMap_filter,
        List.filter_filterMap, List.filter_filterMap]
      congr 3
      funext c
      by_cases hc : c = a
      · simp [hc, hfa, Option.filter]
      · simp [hc]

/-- Two lists agree in the first appearances of what `f` reads of them. -/
def SameFirst (f : α → β) (l l' : List α) : Prop :=
  firstSeen (l.map f) = firstSeen (l'.map f)

namespace SameFirst

variable {f : α → β} {l l' l'' : List α}

omit [DecidableEq α] in
theorem of_eq (f : α → β) (h : l = l') : SameFirst f l l' := by rw [h, SameFirst]

omit [DecidableEq α] in
theorem trans (h : SameFirst f l l') (h' : SameFirst f l' l'') : SameFirst f l l'' :=
  Eq.trans h h'

variable [DecidableEq γ]

omit [DecidableEq α] in
/-- What depends only on what is read is found in the same order. -/
theorem filterMap_eq (h : SameFirst f l l') {g : α → Option γ} (hg : g.FactorsThrough f) :
    firstSeen (l.filterMap g) = firstSeen (l'.filterMap g) := by
  obtain ⟨e, rfl⟩ := (Function.factorsThrough_iff g).1 hg
  rw [← List.filterMap_map, ← List.filterMap_map, ← firstSeen_filterMap, h, firstSeen_filterMap]

omit [DecidableEq α] in
theorem mono (h : SameFirst f l l') {g : α → γ} (hg : g.FactorsThrough f) : SameFirst g l l' := by
  have := h.filterMap_eq (hg.comp_left some)
  rwa [List.filterMap_eq_map] at this

omit [DecidableEq α] [DecidableEq γ] in
theorem filter (h : SameFirst f l l') {p : α → Bool} (hp : p.FactorsThrough f) :
    SameFirst f (l.filter p) (l'.filter p) := by
  obtain ⟨q, rfl⟩ := (Function.factorsThrough_iff p).1 hp
  unfold SameFirst
  rw [← List.filter_map, ← List.filter_map, firstSeen_filter, firstSeen_filter, h]

omit [DecidableEq α] [DecidableEq γ] in
theorem head?_eq (h : SameFirst f l l') {g : α → γ} (hg : g.FactorsThrough f) :
    l.head?.map g = l'.head?.map g := by
  classical
  have hfirst := congrArg List.head? (h.mono hg)
  rwa [head?_firstSeen, head?_firstSeen, List.head?_map, List.head?_map] at hfirst

end SameFirst

end FirstSeen

/-- The items of each key in the order in which the keys appear first. -/
theorem groupByKey_eq {α κ : Type} [DecidableEq κ] (key? : α → Option κ) (items : List α) :
    groupByKey key? items =
      (firstSeen (items.filterMap key?)).map fun k => items.filter fun i => key? i = some k := by
  have hkeys : (items.filterMap fun i => (key? i).map fun k => (k, i)).map (·.1) =
      items.filterMap key? := by
    rw [List.map_filterMap]
    simp [Option.map_map, Function.comp_def]
  have hitems (k : κ) :
      ((items.filterMap fun i => (key? i).map fun k => (k, i)).filter (·.1 = k)).map (·.2) =
        items.filter fun i => key? i = some k := by
    rw [List.filter_filterMap, List.map_filterMap, ← List.filterMap_eq_filter]
    congr 1
    funext i
    cases hi : key? i with
    | none => simp [hi, Option.guard]
    | some l => by_cases hl : l = k <;> simp [hi, hl, Option.filter, Option.guard]
  unfold groupByKey
  simp only [hkeys, hitems]
  rfl

section Blocks

variable {α β κ : Type} [DecidableEq κ] {l : List α} {g : α → List β} {key : α → κ}
  {key? : β → Option κ}

/-- Blocks of items with one key each are seen in their order. -/
theorem firstSeen_keys (hne : ∀ a ∈ l, g a ≠ []) (hkey : ∀ a ∈ l, ∀ b ∈ g a, key? b = some (key a))
    (hnodup : (l.map key).Nodup) : firstSeen ((l.flatMap g).filterMap key?) = l.map key := by
  rw [List.filterMap_flatMap, firstSeen_flatMap, firstSeen_of_nodup hnodup]
  · intro a ha hnil
    obtain ⟨b, hb⟩ := List.exists_mem_of_ne_nil _ (hne a ha)
    have hnone := List.filterMap_eq_nil_iff.1 hnil b hb
    rw [hkey a ha b hb] at hnone
    cases hnone
  · intro a ha k hk
    obtain ⟨b, hb, hbk⟩ := List.mem_filterMap.1 hk
    rw [hkey a ha b hb] at hbk
    exact (Option.some.inj hbk).symm

/-- The items of a key are the block that has it. -/
theorem filter_key_flatMap (hkey : ∀ a ∈ l, ∀ b ∈ g a, key? b = some (key a))
    (hnodup : (l.map key).Nodup) {a : α} (ha : a ∈ l) :
    ((l.flatMap g).filter fun b => key? b = some (key a)) = g a := by
  induction l with
  | nil => cases ha
  | cons c l ih =>
    obtain ⟨hc, hrest⟩ := List.nodup_cons.1 (List.map_cons ▸ hnodup)
    rw [List.flatMap_cons, List.filter_append]
    have hothers {d : α} (hd : d ∈ c :: l) (hne : key d ≠ key a) :
        ((g d).filter fun b => key? b = some (key a)) = [] := by
      rw [List.filter_eq_nil_iff]
      intro b hb
      simp [hkey d hd b hb, hne]
    rcases List.mem_cons.1 ha with rfl | ha
    · have hown : ((g a).filter fun b => key? b = some (key a)) = g a := by
        rw [List.filter_eq_self]
        intro b hb
        simp [hkey a List.mem_cons_self b hb]
      have hlater : ((l.flatMap g).filter fun b => key? b = some (key a)) = [] := by
        rw [List.filter_flatMap, List.flatMap_eq_nil_iff]
        intro d hd
        exact hothers (List.mem_cons_of_mem _ hd) fun heq => hc (heq ▸ List.mem_map_of_mem hd)
      rw [hown, hlater, List.append_nil]
    · have hfirst := hothers List.mem_cons_self fun heq => hc (heq ▸ List.mem_map_of_mem ha)
      rw [hfirst, List.nil_append]
      exact ih (fun d hd => hkey d (List.mem_cons_of_mem _ hd)) hrest ha

end Blocks

namespace RowGroup

theorem entities_eq (g : RowGroup) :
    g.entities = (firstSeen (g.rows.filterMap g.key?)).map fun k =>
      { g with rows := g.rows.filter fun row => g.key? row = some k } := by
  rw [entities, groupByKey_eq, List.map_map]
  rfl

end RowGroup

end MappedQuery.Sql
