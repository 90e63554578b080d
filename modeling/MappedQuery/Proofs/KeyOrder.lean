import MappedQuery.Proofs.CellOrder
import MappedQuery.Proofs.EntityGroups

/-!
# Keys in ascending order

A statement orders its rows by the keys of all its tables. Rows that agree in the keys of the
tables before are in the order of the keys of the next one, so if every key can be had together
with the keys before it, the keys of a table appear first in ascending order.
-/
namespace MappedQuery

section StableSort

variable {α β : Type}

/-- Items are in a total order by what is read of them. -/
theorem transCmp_on (cmp : β → β → Ordering) [Std.TransCmp cmp] (f : α → β) :
    Std.TransCmp fun x y => cmp (f x) (f y) where
  eq_swap := Std.OrientedCmp.eq_swap
  isLE_trans := Std.TransCmp.isLE_trans

/-- What is put into a list that is sorted backwards leaves it so. -/
theorem pairwise_insertBackwards {cmp : α → α → Ordering} [Std.TransCmp cmp] (a : α)
    {sorted : List α} (h : sorted.Pairwise fun x y => cmp x y ≠ .lt) :
    (insertBackwards cmp a sorted).Pairwise fun x y => cmp x y ≠ .lt := by
  induction sorted with
  | nil => exact List.pairwise_singleton _ a
  | cons b rest ih =>
    obtain ⟨hb, hrest⟩ := List.pairwise_cons.1 h
    unfold insertBackwards
    split
    · rename_i hlt
      refine List.pairwise_cons.2 ⟨fun x hx => ?_, ih hrest⟩
      rcases List.mem_cons.1 ((perm_insertBackwards cmp a rest).mem_iff.1 hx) with rfl | hx
      · have hgt : cmp b x = .gt := Std.OrientedCmp.gt_iff_lt.2 (Ordering.isLT_iff_eq_lt.1 hlt)
        simp [hgt]
      · exact hb x hx
    · rename_i hge
      have hab : cmp a b ≠ .lt := fun hlt => hge (Ordering.isLT_iff_eq_lt.2 hlt)
      refine List.pairwise_cons.2 ⟨fun x hx => ?_, h⟩
      rcases List.mem_cons.1 hx with rfl | hx
      · exact hab
      · have htrans := Std.TransCmp.isGE_trans (Ordering.isGE_iff_ne_lt.2 hab)
          (Ordering.isGE_iff_ne_lt.2 (hb x hx))
        exact Ordering.isGE_iff_ne_lt.1 htrans

/-- No item of a sorted list is less than one before it. -/
theorem pairwise_stableSort (cmp : α → α → Ordering) [Std.TransCmp cmp] (items : List α) :
    (stableSort cmp items).Pairwise fun x y => cmp y x ≠ .lt := by
  suffices key : ∀ (items sorted : List α), (sorted.Pairwise fun x y => cmp x y ≠ .lt) →
      (items.foldl (fun sorted a => insertBackwards cmp a sorted) sorted).Pairwise
        fun x y => cmp x y ≠ .lt by
    exact List.pairwise_reverse.2 (key items [] List.Pairwise.nil)
  intro items
  induction items with
  | nil => exact fun sorted h => h
  | cons a items ih => exact fun sorted h => ih _ (pairwise_insertBackwards a h)

private theorem map_insertBackwards (cmp : β → β → Ordering) (f : α → β) (a : α)
    (sorted : List α) :
    insertBackwards cmp (f a) (sorted.map f) =
      (insertBackwards (fun x y => cmp (f x) (f y)) a sorted).map f := by
  induction sorted with
  | nil => rfl
  | cons b rest ih =>
    simp only [List.map_cons, insertBackwards, ih]
    split <;> rfl

/-- Items are sorted as what they are sorted by. -/
theorem stableSort_map (cmp : β → β → Ordering) (f : α → β) (items : List α) :
    stableSort cmp (items.map f) = (stableSort (fun x y => cmp (f x) (f y)) items).map f := by
  suffices key : ∀ (items sorted : List α),
      (items.map f).foldl (fun sorted a => insertBackwards cmp a sorted) (sorted.map f) =
        (items.foldl (fun sorted a => insertBackwards (fun x y => cmp (f x) (f y)) a sorted)
          sorted).map f by
    rw [stableSort, stableSort, List.map_reverse]
    exact congrArg List.reverse (key items [])
  intro items
  induction items with
  | nil => exact fun _ => rfl
  | cons a items ih =>
    intro sorted
    rw [List.map_cons, List.foldl_cons, List.foldl_cons, map_insertBackwards, ih]

end StableSort

section CompareLex

variable {α : Type} {cmp : α → α → Ordering}

theorem compareLex_append_left [Std.ReflCmp cmp] (front a b : List α) :
    List.compareLex cmp (front ++ a) (front ++ b) = List.compareLex cmp a b := by
  induction front with
  | nil => rfl
  | cons x front ih =>
    have hself : cmp x x = .eq := Std.ReflCmp.compare_self
    rw [List.cons_append, List.cons_append, List.compareLex_cons_cons, hself, ih]
    rfl

/-- Lists whose first parts are as long as each other are compared by these first. -/
theorem compareLex_append {a b : List α} (h : a.length = b.length) (as bs : List α) :
    List.compareLex cmp (a ++ as) (b ++ bs) =
      (List.compareLex cmp a b).then (List.compareLex cmp as bs) := by
  induction a generalizing b with
  | nil =>
    obtain rfl := List.eq_nil_of_length_eq_zero h.symm
    rw [List.nil_append, List.nil_append, List.compareLex_nil_nil]
    rfl
  | cons x a ih =>
    cases b with
    | nil => cases h
    | cons y b =>
      rw [List.cons_append, List.cons_append, List.compareLex_cons_cons,
        List.compareLex_cons_cons, ih (Nat.succ.inj h), Ordering.then_assoc]

end CompareLex

namespace Sql

/-- Keys appear first in ascending order if none can come before another without appearing with
what comes before that one. -/
theorem firstSeen_pairwise {α κ : Type} [DecidableEq κ] (cmp : α → α → Ordering)
    [Std.ReflCmp cmp] {key? : α → Option κ} {before : κ → κ → Prop} {l : List α}
    (hsorted : l.Pairwise fun a b => cmp b a ≠ .lt)
    (htotal : ∀ a ∈ l, ∀ b ∈ l, ∀ j k, key? a = some j → key? b = some k → j ≠ k →
      before j k ∨ before k j)
    (hearlier : ∀ a ∈ l, ∀ b ∈ l, ∀ j k, key? a = some j → key? b = some k → before k j →
      ∃ c ∈ l, key? c = some k ∧ cmp c a = .lt) :
    (firstSeen (l.filterMap key?)).Pairwise before := by
  induction hlength : l.length using Nat.strongRecOn generalizing l with
  | ind n ih =>
    cases l with
    | nil => exact List.Pairwise.nil
    | cons a l =>
      obtain ⟨ha, hrest⟩ := List.pairwise_cons.1 hsorted
      rw [List.length_cons] at hlength
      cases hkey : key? a with
      | none =>
        rw [List.filterMap_cons_none hkey]
        refine ih l.length (by omega) hrest
          (fun b hb c hc => htotal b (List.mem_cons_of_mem _ hb) c (List.mem_cons_of_mem _ hc))
          (fun b hb c hc j k hj hk hjk => ?_) rfl
        obtain ⟨e, he, hek, hlt⟩ := hearlier b (List.mem_cons_of_mem _ hb) c
          (List.mem_cons_of_mem _ hc) j k hj hk hjk
        rcases List.mem_cons.1 he with rfl | he
        · rw [hkey] at hek
          cases hek
        · exact ⟨e, he, hek, hlt⟩
      | some j =>
        have hothers : (l.filterMap key?).filter (fun k => !k == j) =
            (l.filter fun b => decide (key? b ≠ some j)).filterMap key? := by
          rw [List.filter_filterMap, List.filterMap_filter]
          congr 1
          funext b
          cases hb : key? b with
          | none => simp
          | some k => by_cases hk : k = j <;> simp [hk, Option.filter]
        rw [List.filterMap_cons_some hkey, firstSeen_cons, hothers]
        have hmem {b : α} (hb : b ∈ l.filter fun b => decide (key? b ≠ some j)) :
            b ∈ l ∧ key? b ≠ some j := by
          simpa using List.mem_filter.1 hb
        refine List.pairwise_cons.2 ⟨fun k hk => ?_, ?_⟩
        · obtain ⟨b, hb, hbk⟩ := List.mem_filterMap.1 (mem_firstSeen.1 hk)
          obtain ⟨hb, hne⟩ := hmem hb
          have hjk : j ≠ k := fun heq => hne (heq ▸ hbk)
          rcases htotal a List.mem_cons_self b (List.mem_cons_of_mem _ hb) j k hkey hbk hjk
            with hlt | hgt
          · exact hlt
          · -- the earlier key would appear with a row that is less than the first
            obtain ⟨c, hc, -, hca⟩ := hearlier a List.mem_cons_self b (List.mem_cons_of_mem _ hb)
              j k hkey hbk hgt
            rcases List.mem_cons.1 hc with rfl | hc
            · have hself : cmp c c = .eq := Std.ReflCmp.compare_self
              rw [hself] at hca
              cases hca
            · exact absurd hca (ha c hc)
        · refine ih _ ?_ (hrest.sublist List.filter_sublist)
            (fun b hb c hc => htotal b (List.mem_cons_of_mem _ (hmem hb).1) c
              (List.mem_cons_of_mem _ (hmem hc).1))
            (fun b hb c hc i k hi hk hik => ?_) rfl
          · have hle := List.length_filter_le (fun b => decide (key? b ≠ some j)) l
            omega
          · obtain ⟨e, he, hek, hlt⟩ := hearlier b (List.mem_cons_of_mem _ (hmem hb).1) c
              (List.mem_cons_of_mem _ (hmem hc).1) i k hi hk hik
            have hne : key? e ≠ some j := fun heq => (hmem hc).2 (hk.trans (hek.symm.trans heq))
            rcases List.mem_cons.1 he with rfl | he
            · exact absurd hkey hne
            · exact ⟨e, List.mem_filter.2 ⟨he, by simpa using hne⟩, hek, hlt⟩

end Sql

end MappedQuery
