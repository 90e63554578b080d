import MappedQuery.Interpret.Refinement
import MappedQuery.Proofs.KeyOrder
import MappedQuery.Proofs.Pushdown
import MappedQuery.Proofs.Sequencing

/-!
# Sorting a part of a list

Sorted keys are of one kind or carry no data, so they are in a total order: that of the cells that
the keys are bound as, with null where the selection says. In a stable sort by a total order the
items that pass a test come in the order in which they come if they are sorted alone. So it makes no
difference whether elements are dropped before they are ordered or after it.
-/
namespace MappedQuery

open Sql

section StableSort

variable {α : Type} {cmp cmp' : α → α → Ordering}

/-- Sorting asks for the order of the items in the list only. -/
theorem stableSort_congr {items : List α} (h : ∀ a ∈ items, ∀ b ∈ items, cmp a b = cmp' a b) :
    stableSort cmp items = stableSort cmp' items := by
  have hinsert {a : α} {sorted : List α} (ha : a ∈ items) (hsorted : sorted ⊆ items) :
      insertBackwards cmp a sorted = insertBackwards cmp' a sorted := by
    induction sorted with
    | nil => rfl
    | cons b rest ih =>
      obtain ⟨hb, hrest⟩ := List.cons_subset.1 hsorted
      rw [insertBackwards, insertBackwards, h a ha b hb, ih hrest]
  suffices key : ∀ {rest sorted : List α}, rest ⊆ items → sorted ⊆ items →
      rest.foldl (fun sorted a => insertBackwards cmp a sorted) sorted =
        rest.foldl (fun sorted a => insertBackwards cmp' a sorted) sorted from
    congrArg List.reverse (key (List.Subset.refl items) (List.nil_subset items))
  intro rest
  induction rest with
  | nil => exact fun _ _ => rfl
  | cons a rest ih =>
    intro sorted hrest hsorted
    obtain ⟨ha, hrest⟩ := List.cons_subset.1 hrest
    rw [List.foldl_cons, List.foldl_cons, hinsert ha hsorted]
    refine ih hrest fun b hb => ?_
    rcases List.mem_cons.1 ((perm_insertBackwards cmp' a sorted).mem_iff.1 hb) with rfl | hb
    · exact ha
    · exact hsorted hb

variable [Std.TransCmp cmp]

/-- In a list that is sorted backwards an item is put where it would stand among the items that
are kept. -/
private theorem filter_insertBackwards (p : α → Bool) (a : α) {sorted : List α}
    (h : sorted.Pairwise fun x y => cmp x y ≠ .lt) :
    (insertBackwards cmp a sorted).filter p =
      if p a then insertBackwards cmp a (sorted.filter p) else sorted.filter p := by
  induction sorted with
  | nil => cases hp : p a <;> simp [insertBackwards, hp]
  | cons b rest ih =>
    obtain ⟨hb, hrest⟩ := List.pairwise_cons.1 h
    rw [insertBackwards]
    split
    · rename_i hlt
      rw [List.filter_cons, List.filter_cons, ih hrest]
      cases hp : p a <;> cases hq : p b <;> simp [insertBackwards, hlt]
    · rename_i hge
      rw [List.filter_cons]
      cases hp : p a with
      | false => rfl
      | true =>
        -- what follows in the list is no greater than its head, so nothing kept is passed
        have hnone : ∀ c ∈ b :: rest, ¬ (cmp a c).isLT := by
          intro c hc
          rcases List.mem_cons.1 hc with rfl | hc
          · exact hge
          · have hab : (cmp a b).isGE :=
              Ordering.isGE_iff_ne_lt.2 fun hlt => hge (Ordering.isLT_iff_eq_lt.2 hlt)
            have hac := Std.TransCmp.isGE_trans hab (Ordering.isGE_iff_ne_lt.2 (hb c hc))
            exact fun hlt => Ordering.isGE_iff_ne_lt.1 hac (Ordering.isLT_iff_eq_lt.1 hlt)
        rw [if_pos rfl, if_pos rfl]
        cases hkept : (b :: rest).filter p with
        | nil => rfl
        | cons c kept =>
          have hc : c ∈ b :: rest := (List.mem_filter.1 (hkept ▸ List.mem_cons_self)).1
          rw [insertBackwards, if_neg (hnone c hc)]

/-- The items that are kept come in the same order, whether they are sorted alone or with the
others. -/
theorem stableSort_filter (p : α → Bool) (items : List α) :
    stableSort cmp (items.filter p) = (stableSort cmp items).filter p := by
  suffices key : ∀ (items sorted : List α), (sorted.Pairwise fun x y => cmp x y ≠ .lt) →
      (items.filter p).foldl (fun sorted a => insertBackwards cmp a sorted) (sorted.filter p) =
        (items.foldl (fun sorted a => insertBackwards cmp a sorted) sorted).filter p by
    rw [stableSort, stableSort, List.filter_reverse]
    exact congrArg List.reverse (key items [] .nil)
  intro items
  induction items with
  | nil => exact fun _ _ => rfl
  | cons a items ih =>
    intro sorted hsorted
    rw [List.foldl_cons, ← ih _ (pairwise_insertBackwards a hsorted),
      filter_insertBackwards p a hsorted, List.filter_cons]
    split
    · rw [List.foldl_cons]
    · rfl

end StableSort

/-- The kinds of values that have a total order of their own. -/
inductive SortKind where
  | whole
  | truth
  | text
deriving DecidableEq, Repr, Inhabited

namespace Value

/-- The kind that a value is sorted as. -/
def sortKind? : Value → Option SortKind
  | int _ => some .whole
  | boolean _ => some .truth
  | v => v.asString?.map fun _ => .text

/-- A key of a kind, or one that carries no data. -/
def SortsAs (v : Value) (kind : SortKind) : Prop :=
  v.isEmpty = true ∨ v.sortKind? = some kind

theorem eq_int_of_sortKind {v : Value} (h : v.sortKind? = some .whole) : ∃ n, v = int n := by
  cases v <;> first | exact ⟨_, rfl⟩ | cases h

theorem eq_boolean_of_sortKind {v : Value} (h : v.sortKind? = some .truth) :
    ∃ b, v = boolean b := by
  cases v <;> first | exact ⟨_, rfl⟩ | cases h

theorem exists_text_of_sortKind {v : Value} (h : v.sortKind? = some .text) :
    ∃ s, v.asString? = some s ∧ Cell.bound v = .text s := by
  cases v <;> first | exact ⟨_, rfl, rfl⟩ | cases h

/-- Values of one kind are in the order of their cells. -/
theorem compare_of_sortKind {v w : Value} {kind : SortKind} (hv : v.sortKind? = some kind)
    (hw : w.sortKind? = some kind) :
    v.compare w = some (Cell.sortOrder (Cell.bound v) (Cell.bound w)) := by
  have hranked {a b : Cell} (ha : a.rank ≠ 0) (hb : b.rank ≠ 0) :
      a.compare b = some (Cell.sortOrder a b) := by
    simp [Cell.compare, ha, hb]
  cases kind with
  | whole =>
    obtain ⟨m, rfl⟩ := eq_int_of_sortKind hv
    obtain ⟨n, rfl⟩ := eq_int_of_sortKind hw
    exact (Cell.compare_integer m n).symm.trans (hranked Nat.one_ne_zero Nat.one_ne_zero)
  | truth =>
    obtain ⟨p, rfl⟩ := eq_boolean_of_sortKind hv
    obtain ⟨q, rfl⟩ := eq_boolean_of_sortKind hw
    exact (Cell.compare_boolean p q).symm.trans (hranked Nat.one_ne_zero Nat.one_ne_zero)
  | text =>
    obtain ⟨s, hs, hvs⟩ := exists_text_of_sortKind hv
    obtain ⟨t, ht, hwt⟩ := exists_text_of_sortKind hw
    rw [hvs, hwt, compare_of_asString hs ht, ← Cell.compare_text]
    exact hranked (Nat.succ_ne_zero 1) (Nat.succ_ne_zero 1)

/-- Only what carries no data is bound as null. -/
theorem SortsAs.isNull_bound {v : Value} {kind : SortKind} (h : v.SortsAs kind) :
    (Cell.bound v).isNull = v.isEmpty := by
  rcases h with h | h
  · rcases (isEmpty_iff v).1 h with rfl | rfl <;> rfl
  · cases v <;> first | rfl | cases h

theorem bound_of_isEmpty {v : Value} (h : v.isEmpty = true) : Cell.bound v = .null := by
  rcases (isEmpty_iff v).1 h with rfl | rfl <;> rfl

end Value

namespace OrderSelection

/-- Where null stands, before or after all other cells. -/
def nullRank (s : OrderSelection) (c : Cell) : Nat :=
  match s.nulls with
  | .first => if c.isNull then 0 else 1
  | .last => if c.isNull then 1 else 0

/-- The order of cells in the direction of a selection. -/
def directed (s : OrderSelection) (a b : Cell) : Ordering :=
  match s.sort with
  | .ascending => Cell.sortOrder a b
  | .descending => Cell.sortOrder b a

/-- The order of a selection as a total order of cells. -/
def cellOrder (s : OrderSelection) : Cell → Cell → Ordering :=
  compareLex (compareOn s.nullRank) s.directed

/-- Cells are compared one selection after the other. -/
def cellsOrder : List OrderSelection → List Cell → List Cell → Ordering
  | [] => fun _ _ => .eq
  | s :: rest => compareLex (fun a b => s.cellOrder (a.headD .null) (b.headD .null))
      fun a b => cellsOrder rest a.tail b.tail

instance (s : OrderSelection) : Std.TransCmp s.cellOrder := by
  have hdirected : Std.TransCmp s.directed := by
    unfold directed
    cases s.sort with
    | ascending => exact inferInstanceAs (Std.TransCmp Cell.sortOrder)
    | descending => exact inferInstanceAs (Std.TransCmp fun a b => Cell.sortOrder b a)
  exact inferInstanceAs (Std.TransCmp (compareLex _ _))

instance (selections : List OrderSelection) : Std.TransCmp (cellsOrder selections) := by
  induction selections with
  | nil => exact { eq_swap := rfl, isLE_trans := fun _ _ => rfl }
  | cons s rest ih =>
    have hhead := transCmp_on s.cellOrder fun a : List Cell => a.headD .null
    have htail := transCmp_on (cellsOrder rest) List.tail
    exact inferInstanceAs (Std.TransCmp (compareLex _ _))

/-- Keys of one kind are in the order of their cells. -/
theorem compareKeys_eq (s : OrderSelection) {v w : Value} {kind : SortKind}
    (hv : v.SortsAs kind) (hw : w.SortsAs kind) :
    s.compareKeys v w = s.cellOrder (Cell.bound v) (Cell.bound w) := by
  have hself : s.directed .null .null = .eq := by
    have hnull : Cell.sortOrder .null .null = .eq := Std.ReflCmp.compare_self
    unfold directed
    split <;> exact hnull
  rw [cellOrder, compareLex, compareOn, nullRank, nullRank, hv.isNull_bound, hw.isNull_bound,
    compareKeys]
  cases hve : v.isEmpty with
  | true =>
    cases hwe : w.isEmpty with
    | true =>
      rw [Value.bound_of_isEmpty hve, Value.bound_of_isEmpty hwe, hself]
      cases s.nulls <;> rfl
    | false => cases s.nulls <;> rfl
  | false =>
    cases hwe : w.isEmpty with
    | true => cases s.nulls <;> rfl
    | false =>
      have hcompare := Value.compare_of_sortKind (hv.resolve_left (by simp [hve]))
        (hw.resolve_left (by simp [hwe]))
      rw [hcompare, directed]
      have hswap : (Cell.sortOrder (Cell.bound v) (Cell.bound w)).swap =
          Cell.sortOrder (Cell.bound w) (Cell.bound v) := Std.OrientedCmp.eq_swap.symm
      cases s.sort with
      | ascending => cases s.nulls <;> rfl
      | descending =>
        simp only [Option.getD_some, hswap]
        cases s.nulls <;> rfl

/-- Keys of which those of each selection are of one kind are in the order of their cells. -/
theorem compareAll_eq {selections : List OrderSelection} {kinds : List SortKind} {as bs : List Value}
    (ha : List.Forall₂ Value.SortsAs as kinds) (hb : List.Forall₂ Value.SortsAs bs kinds)
    (hlength : selections.length = kinds.length) :
    compareAll selections as bs =
      cellsOrder selections (as.map Cell.bound) (bs.map Cell.bound) := by
  induction selections generalizing kinds as bs with
  | nil => rw [compareAll, cellsOrder]; simp
  | cons s rest ih =>
    cases ha with
    | nil => cases hlength
    | cons ha has =>
      cases hb with
      | cons hb hbs =>
        rw [compareAll, compareKeys_eq s ha hb, ih has hbs (Nat.succ.inj hlength)]
        rfl

end OrderSelection

section Ordered

variable {m : Mapping} {selections : List OrderSelection} {elements : List Cursor}

/-- The values of an operand are all of one kind or carry no data. -/
def Term.SortsOn (m : Mapping) (t : Term) (elements : List Cursor) : Prop :=
  ∃ kind, ∀ c ∈ elements, ∃ v, t.value m c = .ok v ∧ v.SortsAs kind

/-- Elements that can be sorted have keys, of which those of each selection are of one kind. -/
theorem exists_keys (h : ∀ s ∈ selections, s.term.SortsOn m elements) :
    ∃ (keysOf : Cursor → List Value) (kinds : List SortKind),
      selections.length = kinds.length ∧ ∀ c ∈ elements,
        (selections.mapM fun s => s.term.value m c) = .ok (keysOf c) ∧
          List.Forall₂ Value.SortsAs (keysOf c) kinds := by
  choose! kindOf hkinds using h
  have hvalue : ∀ s ∈ selections, ∀ c ∈ elements,
      s.term.value m c = .ok ((s.term.value m c).toOption.getD .null) ∧
        ((s.term.value m c).toOption.getD .null).SortsAs (kindOf s) := by
    intro s hs c hc
    obtain ⟨v, hv, hsorts⟩ := hkinds s hs c hc
    rw [hv]
    exact ⟨rfl, hsorts⟩
  refine ⟨fun c => selections.map fun s => (s.term.value m c).toOption.getD .null,
    selections.map kindOf, (List.length_map _).symm, fun c hc => ⟨?_, ?_⟩⟩
  · exact mapM_eq_pure fun s hs => (hvalue s hs c hc).1
  · rw [List.forall₂_map_left_iff, List.forall₂_map_right_iff, List.forall₂_same]
    exact fun s hs => (hvalue s hs c hc).2

/-- Elements are sorted by their keys. -/
theorem ordered_eq {keysOf : Cursor → List Value}
    (h : ∀ c ∈ elements, (selections.mapM fun s => s.term.value m c) = .ok (keysOf c)) :
    ordered m selections elements = .ok (stableSort
      (fun a b => OrderSelection.compareAll selections (keysOf a) (keysOf b)) elements) := by
  have hkeyed : keyed m selections elements = .ok (elements.map fun c => (keysOf c, c)) := by
    refine mapM_eq_pure fun c hc => ?_
    rw [h c hc]
    rfl
  rw [ordered, hkeyed]
  change Except.ok _ = Except.ok _
  rw [stableSort_map, List.map_map]
  exact congrArg Except.ok (List.map_id _)

/-- Elements that can be sorted are sorted by a total order, whatever else is sorted with them. -/
theorem exists_order (h : ∀ s ∈ selections, s.term.SortsOn m elements) :
    ∃ cmp : Cursor → Cursor → Ordering, Std.TransCmp cmp ∧ ∀ part ⊆ elements,
      ordered m selections part = .ok (stableSort cmp part) := by
  obtain ⟨keysOf, kinds, hlength, hkeys⟩ := exists_keys h
  refine ⟨fun a b => OrderSelection.cellsOrder selections ((keysOf a).map Cell.bound)
    ((keysOf b).map Cell.bound), transCmp_on _ fun c => (keysOf c).map Cell.bound,
    fun part hpart => ?_⟩
  rw [ordered_eq fun c hc => (hkeys c (hpart hc)).1]
  refine congrArg Except.ok (stableSort_congr fun a ha b hb => ?_)
  exact OrderSelection.compareAll_eq (hkeys a (hpart ha)).2 (hkeys b (hpart hb)).2 hlength

/-- Elements may be dropped before they are ordered or after it. -/
theorem ordered_filter (h : ∀ s ∈ selections, s.term.SortsOn m elements) (p : Cursor → Bool) :
    ∃ sorted, sorted.Perm elements ∧ ordered m selections elements = .ok sorted ∧
      ordered m selections (elements.filter p) = .ok (sorted.filter p) := by
  obtain ⟨cmp, htotal, hordered⟩ := exists_order h
  refine ⟨stableSort cmp elements, perm_stableSort cmp elements, hordered _ (List.Subset.refl _), ?_⟩
  rw [hordered _ (List.filter_subset_self ..), stableSort_filter]

end Ordered

end MappedQuery
