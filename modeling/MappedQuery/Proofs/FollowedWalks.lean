import Mathlib.Data.List.Nodup
import Mathlib.Data.List.Perm.Subperm
import Mathlib.Logic.Relation
import Mathlib.Order.WellFounded
import MappedQuery.Schema.Lookup

/-!
# Walks that end

A walk that stands at an item that does not pass goes on to one of those next to it once those
before have led to nothing. It has an end if and only if it cannot come back to an item that way,
and then a bound on the items that have others next to them bounds its steps: a walk that comes to
new items only passes no more of them than there are.
-/
namespace MappedQuery

namespace Walk

variable {ι α : Type} {next : ι → List ι} {test : ι → Option α} {i j : ι}

/-- The first of an item and those next to it, depth first, that passes `test`, if a number of
steps is enough to tell. -/
def follow (next : ι → List ι) (test : ι → Option α) : Nat → ι → Walk α
  | 0, _ => unfinished
  | steps + 1, i =>
    match test i with
    | some a => found a
    | none => first (follow next test steps) (next i)

/-- The walk from an item has an end: some number of steps is enough for it. -/
def Ends (next : ι → List ι) (test : ι → Option α) (i : ι) : Prop :=
  ∃ n, follow next test n i ≠ unfinished

/-- The walk from an item has an end, and this is what it has found then. -/
def Tells (next : ι → List ι) (test : ι → Option α) (i : ι) (found? : Option α) : Prop :=
  ∃ n, follow next test n i ≠ unfinished ∧ (follow next test n i).toOption = found?

/-- A walk that stands at an item goes on to one next to it: the item does not pass, and the walks
from those before find nothing. -/
def GoesOn (next : ι → List ι) (test : ι → Option α) (i j : ι) : Prop :=
  test i = none ∧ ∃ before after, next i = before ++ j :: after ∧
    ∀ b ∈ before, Tells next test b none

/-- A walk comes to no item that it has come to before. -/
def NeverReturns (next : ι → List ι) (test : ι → Option α) (i : ι) : Prop :=
  ∀ u, Relation.ReflTransGen (GoesOn next test) i u → ¬ Relation.TransGen (GoesOn next test) u u

theorem GoesOn.mem_next (h : GoesOn next test i j) : j ∈ next i := by
  obtain ⟨-, before, after, hsplit, -⟩ := h
  rw [hsplit]
  exact List.mem_append_right _ List.mem_cons_self

/-- Searches that end alike where the first of them does find the same first. -/
theorem first_congr {search search' : ι → Walk α} :
    ∀ {l : List ι}, (∀ k ∈ l, search k ≠ unfinished → search' k = search k) →
      first search l ≠ unfinished → first search' l = first search l
  | [], _, _ => rfl
  | k :: rest, h, hended => by
    have hk : search k ≠ unfinished := fun hcut => hended (by rw [first, hcut])
    unfold first at hended ⊢
    rw [h k List.mem_cons_self hk]
    cases hsearch : search k with
    | found a => rfl
    | unfinished => exact absurd hsearch hk
    | absent =>
      rw [hsearch] at hended
      exact first_congr (fun m hm => h m (List.mem_cons_of_mem k hm)) hended

/-- A walk that has ended does not change with more steps. -/
theorem follow_mono {m n : Nat} (h : m ≤ n) (hm : follow next test m i ≠ unfinished) :
    follow next test n i = follow next test m i := by
  induction m generalizing n i with
  | zero => exact absurd rfl hm
  | succ m ih =>
    obtain ⟨k, rfl⟩ : ∃ k, n = k + 1 := ⟨n - 1, by omega⟩
    unfold follow at hm ⊢
    split at hm
    · rfl
    · exact first_congr (fun _ _ hended => ih (by omega) hended) hm

/-- Walks that have ended with different numbers of steps have come to the same. -/
theorem follow_eq_of_ended {m n : Nat} (hm : follow next test m i ≠ unfinished)
    (hn : follow next test n i ≠ unfinished) : follow next test m i = follow next test n i := by
  rcases Nat.le_total m n with hle | hle
  · exact (follow_mono hle hm).symm
  · exact follow_mono hle hn

theorem tells_none_iff : Tells next test i none ↔ ∃ n, follow next test n i = absent := by
  constructor
  · rintro ⟨n, hended, hnone⟩
    refine ⟨n, ?_⟩
    cases hwalk : follow next test n i with
    | found a =>
      rw [hwalk] at hnone
      cases hnone
    | absent => rfl
    | unfinished => exact absurd hwalk hended
  · rintro ⟨n, habsent⟩
    exact ⟨n, by rw [habsent]; exact nofun, by rw [habsent]; rfl⟩

theorem follow_eq_absent {n : Nat} (h : Tells next test i none)
    (hn : follow next test n i ≠ unfinished) : follow next test n i = absent := by
  obtain ⟨m, hm⟩ := tells_none_iff.1 h
  rw [← hm]
  exact follow_eq_of_ended hn (by rw [hm]; exact nofun)

/-- A walk that finds nothing has been to all that is next to its item. -/
theorem not_passes_of_tells (h : Tells next test i none) :
    test i = none ∧ ∀ j ∈ next i, Tells next test j none := by
  obtain ⟨n, hn⟩ := tells_none_iff.1 h
  cases n with
  | zero => cases hn
  | succ n =>
    unfold follow at hn
    split at hn
    · cases hn
    · rename_i hnone
      exact ⟨hnone, fun j hj => tells_none_iff.2 ⟨n, first_eq_absent hn j hj⟩⟩

/-- Where a walk goes on, fewer steps are enough. -/
theorem GoesOn.follow_ne_unfinished {n : Nat} (hj : GoesOn next test i j)
    (h : follow next test (n + 1) i ≠ unfinished) : follow next test n j ≠ unfinished := by
  obtain ⟨hnone, before, after, hsplit, hbefore⟩ := hj
  unfold follow at h
  rw [hnone, hsplit] at h
  exact ne_unfinished_of_first (fun b hb => follow_eq_absent (hbefore b hb)) h

/-- Going on from a walk with an end cannot go on forever. -/
theorem Ends.acc (h : Ends next test i) : Acc (Function.swap (GoesOn next test)) i := by
  obtain ⟨n, h⟩ := h
  induction n generalizing i with
  | zero => exact absurd rfl h
  | succ n ih => exact Acc.intro i fun j hj => ih (GoesOn.follow_ne_unfinished hj h)

theorem Ends.goesOn (h : Ends next test i) (hj : GoesOn next test i j) : Ends next test j := by
  obtain ⟨n, h⟩ := h
  cases n with
  | zero => exact absurd rfl h
  | succ n => exact ⟨n, hj.follow_ne_unfinished h⟩

theorem Ends.neverReturns (h : Ends next test i) : NeverReturns next test i := by
  intro u hu
  have hends : Ends next test u := by
    induction hu with
    | refl => exact h
    | tail _ hj ih => exact ih.goesOn hj
  intro hloop
  exact not_acc_iff_exists_descending_chain.2
    ⟨fun _ => u, rfl, fun _ => Relation.transGen_swap.2 hloop⟩ hends.acc.transGen

/-- A walk that came through different items, and may still pass as many as there are besides
them, is not cut off unless it comes back to one of them. -/
theorem NeverReturns.follow_ne_unfinished {all : List ι} (hall : ∀ k, next k ≠ [] → k ∈ all)
    {n : Nat} (h : NeverReturns next test i) (passed : List ι) (hnodup : passed.Nodup)
    (hpassed : ∀ p ∈ passed, Relation.TransGen (GoesOn next test) p i)
    (hsteps : all.length < passed.length + n) : follow next test n i ≠ unfinished := by
  induction n generalizing i passed with
  | zero =>
    have hsubset : passed ⊆ all := fun p hp => by
      obtain ⟨b, hb, -⟩ := Relation.TransGen.head'_iff.1 (hpassed p hp)
      exact hall p (List.ne_nil_of_mem hb.mem_next)
    have hle := hnodup.length_le_of_subset hsubset
    omega
  | succ n ih =>
    unfold follow
    split
    · exact nofun
    · rename_i hnone
      refine first_ne_unfinished fun before j after hsplit hbefore => ?_
      have hj : GoesOn next test i j :=
        ⟨hnone, before, after, hsplit, fun b hb => tells_none_iff.2 ⟨n, hbefore b hb⟩⟩
      have hnew : i ∉ passed := fun hi => h i .refl (hpassed i hi)
      refine ih (fun u hu => h u (.head hj hu)) (i :: passed)
        (List.nodup_cons.2 ⟨hnew, hnodup⟩) (fun p hp => ?_) ?_
      · rcases List.mem_cons.1 hp with rfl | hp
        · exact .single hj
        · exact (hpassed p hp).tail hj
      · rw [List.length_cons]
        omega

/-- A walk that comes to new items only ends within as many steps as there are items that have
others next to them, and one more. -/
theorem NeverReturns.ends_within {all : List ι} (hall : ∀ k, next k ≠ [] → k ∈ all)
    (h : NeverReturns next test i) : follow next test (all.length + 1) i ≠ unfinished := by
  refine h.follow_ne_unfinished hall [] .nil (fun p hp => absurd hp List.not_mem_nil) ?_
  rw [List.length_nil]
  omega

end Walk

end MappedQuery
