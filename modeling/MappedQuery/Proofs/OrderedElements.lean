import Mathlib.Data.String.Basic
import MappedQuery.Proofs.PushedFilters
import MappedQuery.Proofs.SortedParts

/-!
# Elements in order

What an ordering promises is stated without a comparison: `Value.Below` is the order of values of
one kind, `OrderSelection.Precedes` takes it in the direction of a selection and puts the missing
values where the selection says, and `OrderSelection.PrecedesAll` goes through the selections one
after the other. Elements whose keys can be sorted are put into this order, and those that it does
not tell apart stay as they were.
-/
namespace MappedQuery

section StableSort

variable {α : Type} {cmp : α → α → Ordering} {R : α → α → Prop}

/-- An item that comes with its list stands before another in a sorted list. -/
def StandsBefore (cmp : α → α → Ordering) (R : α → α → Prop) (x y : α) : Prop :=
  cmp x y = .lt ∨ cmp x y = .eq ∧ R x y

variable [Std.TransCmp cmp]

/-- What comes last is put behind all that it is level with. -/
private theorem standsBefore_insertBackwards {a : α} {sorted : List α}
    (h : sorted.Pairwise fun x y => StandsBefore cmp R y x) (ha : ∀ x ∈ sorted, R x a) :
    (insertBackwards cmp a sorted).Pairwise fun x y => StandsBefore cmp R y x := by
  induction sorted with
  | nil => exact List.pairwise_singleton _ a
  | cons b rest ih =>
    obtain ⟨hb, hrest⟩ := List.pairwise_cons.1 h
    unfold insertBackwards
    split
    · rename_i hlt
      refine List.pairwise_cons.2
        ⟨fun x hx => ?_, ih hrest fun x hx => ha x (List.mem_cons_of_mem _ hx)⟩
      rcases List.mem_cons.1 ((perm_insertBackwards cmp a rest).mem_iff.1 hx) with rfl | hx
      · exact .inl (Ordering.isLT_iff_eq_lt.1 hlt)
      · exact hb x hx
    · rename_i hge
      refine List.pairwise_cons.2 ⟨fun x hx => ?_, h⟩
      have hab : cmp a b ≠ .lt := fun hlt => hge (Ordering.isLT_iff_eq_lt.2 hlt)
      have hba : (cmp b a).isLE := by
        have hswap : cmp b a = (cmp a b).swap := Std.OrientedCmp.eq_swap
        cases hcmp : cmp a b <;> simp_all
      have hxa : (cmp x a).isLE := by
        rcases List.mem_cons.1 hx with rfl | hx
        · exact hba
        · refine Std.TransCmp.isLE_trans ?_ hba
          rcases hb x hx with hlt | ⟨heq, -⟩
          · simp [hlt]
          · simp [heq]
      have hR := ha x hx
      cases hcmp : cmp x a with
      | lt => exact .inl hcmp
      | eq => exact .inr ⟨hcmp, hR⟩
      | gt => simp [hcmp] at hxa

/-- Items that are not told apart stay in the order in which they come. -/
theorem standsBefore_stableSort {items : List α} (h : items.Pairwise R) :
    (stableSort cmp items).Pairwise (StandsBefore cmp R) := by
  suffices key : ∀ (items sorted : List α), items.Pairwise R →
      (sorted.Pairwise fun x y => StandsBefore cmp R y x) → (∀ x ∈ sorted, ∀ a ∈ items, R x a) →
      (items.foldl (fun sorted a => insertBackwards cmp a sorted) sorted).Pairwise
        fun x y => StandsBefore cmp R y x by
    exact List.pairwise_reverse.2 (key items [] h .nil (by simp))
  intro items
  induction items with
  | nil => exact fun _ _ hsorted _ => hsorted
  | cons a items ih =>
    intro sorted hitems hsorted hbefore
    obtain ⟨ha, hitems⟩ := List.pairwise_cons.1 hitems
    apply ih _ hitems
    · exact standsBefore_insertBackwards hsorted fun x hx => hbefore x hx a List.mem_cons_self
    · intro x hx b hb
      rcases List.mem_cons.1 ((perm_insertBackwards cmp a sorted).mem_iff.1 hx) with rfl | hx
      · exact ha b hb
      · exact hbefore x hx b (List.mem_cons_of_mem _ hb)

end StableSort

namespace Value

/-- The order of values of one kind: whole numbers by size, false before true, texts by their
characters. -/
inductive Below : Value → Value → Prop
  | whole {a b : Int64} : a.toInt < b.toInt → Below (int a) (int b)
  | truth : Below (boolean false) (boolean true)
  | text {v w : Value} {s t : String} : v.asString? = some s → w.asString? = some t → s < t →
    Below v w

/-- Values that an ordering does not tell apart. -/
inductive Level : Value → Value → Prop
  | missing {v w : Value} : v.isEmpty = true → w.isEmpty = true → Level v w
  | whole (a : Int64) : Level (int a) (int a)
  | truth (b : Bool) : Level (boolean b) (boolean b)
  | text {v w : Value} {s : String} : v.asString? = some s → w.asString? = some s → Level v w

/-- Values of one kind can be compared, and come as they compare. -/
theorem compare_cases {v w : Value} {kind : SortKind} (hv : v.sortKind? = some kind)
    (hw : w.sortKind? = some kind) :
    v.compare w = some .lt ∧ v.Below w ∨ v.compare w = some .eq ∧ v.Level w ∨
      v.compare w = some .gt ∧ w.Below v := by
  cases kind with
  | whole =>
    obtain ⟨a, rfl⟩ := eq_int_of_sortKind hv
    obtain ⟨b, rfl⟩ := eq_int_of_sortKind hw
    rcases lt_trichotomy a.toInt b.toInt with hlt | heq | hgt
    · exact .inl ⟨congrArg some (compare_lt_iff_lt.2 hlt), .whole hlt⟩
    · obtain rfl := Int64.toInt_inj.1 heq
      exact .inr (.inl ⟨congrArg some (compare_eq_iff_eq.2 rfl), .whole a⟩)
    · exact .inr (.inr ⟨congrArg some (compare_gt_iff_gt.2 hgt), .whole hgt⟩)
  | truth =>
    obtain ⟨a, rfl⟩ := eq_boolean_of_sortKind hv
    obtain ⟨b, rfl⟩ := eq_boolean_of_sortKind hw
    cases a with
    | false =>
      cases b with
      | false => exact .inr (.inl ⟨rfl, .truth false⟩)
      | true => exact .inl ⟨rfl, .truth⟩
    | true =>
      cases b with
      | false => exact .inr (.inr ⟨rfl, .truth⟩)
      | true => exact .inr (.inl ⟨rfl, .truth true⟩)
  | text =>
    obtain ⟨s, hs, -⟩ := exists_text_of_sortKind hv
    obtain ⟨t, ht, -⟩ := exists_text_of_sortKind hw
    rw [compare_of_asString hs ht]
    rcases lt_trichotomy s t with hlt | rfl | hgt
    · exact .inl ⟨congrArg some (compare_lt_iff_lt.2 hlt), .text hs ht hlt⟩
    · exact .inr (.inl ⟨congrArg some (compare_eq_iff_eq.2 rfl), .text hs ht⟩)
    · exact .inr (.inr ⟨congrArg some (compare_gt_iff_gt.2 hgt), .text ht hs hgt⟩)

end Value

namespace OrderSelection

/-- One key comes before another: the missing ones first or last, whatever the direction, the
others in the direction of the selection. -/
inductive Precedes (s : OrderSelection) : Value → Value → Prop
  | missingFirst {v w : Value} : s.nulls = .first → v.isEmpty = true → w.isEmpty = false →
    s.Precedes v w
  | missingLast {v w : Value} : s.nulls = .last → v.isEmpty = false → w.isEmpty = true →
    s.Precedes v w
  | ascending {v w : Value} : s.sort = .ascending → v.Below w → s.Precedes v w
  | descending {v w : Value} : s.sort = .descending → w.Below v → s.Precedes v w

/-- One element comes before another: by the first selection that tells their keys apart. -/
inductive PrecedesAll : List OrderSelection → List Value → List Value → Prop
  | first {s : OrderSelection} {v w : Value} {rest : List OrderSelection} {vs ws : List Value} :
    s.Precedes v w → PrecedesAll (s :: rest) (v :: vs) (w :: ws)
  | next {s : OrderSelection} {v w : Value} {rest : List OrderSelection} {vs ws : List Value} :
    v.Level w → PrecedesAll rest vs ws → PrecedesAll (s :: rest) (v :: vs) (w :: ws)

/-- Keys that can be sorted come as they compare. -/
theorem compareKeys_cases (s : OrderSelection) {v w : Value} {kind : SortKind}
    (hv : v.SortsAs kind) (hw : w.SortsAs kind) :
    s.compareKeys v w = .lt ∧ s.Precedes v w ∨ s.compareKeys v w = .eq ∧ v.Level w ∨
      s.compareKeys v w = .gt ∧ s.Precedes w v := by
  unfold compareKeys
  cases hve : v.isEmpty with
  | true =>
    cases hwe : w.isEmpty with
    | true => exact .inr (.inl ⟨rfl, .missing hve hwe⟩)
    | false =>
      cases hn : s.nulls with
      | first => exact .inl ⟨rfl, .missingFirst hn hve hwe⟩
      | last => exact .inr (.inr ⟨rfl, .missingLast hn hwe hve⟩)
  | false =>
    cases hwe : w.isEmpty with
    | true =>
      cases hn : s.nulls with
      | first => exact .inr (.inr ⟨rfl, .missingFirst hn hwe hve⟩)
      | last => exact .inl ⟨rfl, .missingLast hn hve hwe⟩
    | false =>
      have hcases := Value.compare_cases (hv.resolve_left (by simp [hve]))
        (hw.resolve_left (by simp [hwe]))
      cases hs : s.sort with
      | ascending =>
        rcases hcases with ⟨h, hlt⟩ | ⟨h, hlevel⟩ | ⟨h, hgt⟩
        · exact .inl ⟨by simp [h], .ascending hs hlt⟩
        · exact .inr (.inl ⟨by simp [h], hlevel⟩)
        · exact .inr (.inr ⟨by simp [h], .ascending hs hgt⟩)
      | descending =>
        rcases hcases with ⟨h, hlt⟩ | ⟨h, hlevel⟩ | ⟨h, hgt⟩
        · exact .inr (.inr ⟨by simp [h], .descending hs hlt⟩)
        · exact .inr (.inl ⟨by simp [h], hlevel⟩)
        · exact .inl ⟨by simp [h], .descending hs hgt⟩

/-- Keys of elements come as they compare, one selection after the other. -/
theorem compareAll_cases {selections : List OrderSelection} {kinds : List SortKind}
    {vs ws : List Value} (hv : List.Forall₂ Value.SortsAs vs kinds)
    (hw : List.Forall₂ Value.SortsAs ws kinds) (hlength : selections.length = kinds.length) :
    (compareAll selections vs ws = .lt → PrecedesAll selections vs ws) ∧
      (compareAll selections vs ws = .eq → List.Forall₂ Value.Level vs ws) := by
  induction selections generalizing kinds vs ws with
  | nil =>
    obtain rfl := List.eq_nil_of_length_eq_zero hlength.symm
    cases hv
    cases hw
    exact ⟨fun h => absurd h (by simp [compareAll]), fun _ => .nil⟩
  | cons s rest ih =>
    cases hv with
    | nil => cases hlength
    | cons hv hvs =>
      cases hw with
      | cons hw hws =>
        obtain ⟨hlt, heq⟩ := ih hvs hws (Nat.succ.inj hlength)
        rw [compareAll]
        rcases compareKeys_cases s hv hw with ⟨h, hprecedes⟩ | ⟨h, hlevel⟩ | ⟨h, -⟩
        · rw [h, Ordering.lt_then]
          exact ⟨fun _ => .first hprecedes, fun h => absurd h (by decide)⟩
        · rw [h, Ordering.eq_then]
          exact ⟨fun h => .next hlevel (hlt h), fun h => .cons hlevel (heq h)⟩
        · rw [h, Ordering.gt_then]
          exact ⟨fun h => absurd h (by decide), fun h => absurd h (by decide)⟩

end OrderSelection

section Ordered

variable {m : Mapping} {selections : List OrderSelection} {elements : List Cursor}

/-- Elements whose keys can be sorted are put into order: of any two, the one that stands before the
other comes before it by the selections, or is level with it by all of them and stood before it. -/
theorem ordered_is_stable (h : ∀ s ∈ selections, s.term.SortsOn m elements) :
    ∃ (keysOf : Cursor → List Value) (sorted : List (Cursor × Nat)),
      (∀ c ∈ elements, (selections.mapM fun s => s.term.value m c) = .ok (keysOf c)) ∧
      sorted.Perm elements.zipIdx ∧
      ordered m selections elements = .ok (sorted.map (·.1)) ∧
      sorted.Pairwise fun a b =>
        OrderSelection.PrecedesAll selections (keysOf a.1) (keysOf b.1) ∨
          List.Forall₂ Value.Level (keysOf a.1) (keysOf b.1) ∧ a.2 < b.2 := by
  obtain ⟨keysOf, kinds, hlength, hkeys⟩ := exists_keys h
  -- away from the elements the comparison need not be total, that of the cells is
  let cmp (a b : Cursor × Nat) : Ordering := OrderSelection.cellsOrder selections
    ((keysOf a.1).map Sql.Cell.bound) ((keysOf b.1).map Sql.Cell.bound)
  have htotal : Std.TransCmp cmp := transCmp_on _ fun a : Cursor × Nat => (keysOf a.1).map Sql.Cell.bound
  have hkeysAt : ∀ a ∈ elements.zipIdx, List.Forall₂ Value.SortsAs (keysOf a.1) kinds :=
    fun a ha => (hkeys a.1 (List.fst_mem_of_mem_zipIdx ha)).2
  have hcmp : ∀ a ∈ elements.zipIdx, ∀ b ∈ elements.zipIdx,
      OrderSelection.compareAll selections (keysOf a.1) (keysOf b.1) = cmp a b :=
    fun a ha b hb => OrderSelection.compareAll_eq (hkeysAt a ha) (hkeysAt b hb) hlength
  have hindices : elements.zipIdx.Pairwise fun a b => a.2 < b.2 := by
    rw [← List.pairwise_map (f := Prod.snd) (R := (· < ·)), List.zipIdx_map_snd]
    exact List.pairwise_lt_range'
  refine ⟨keysOf, stableSort cmp elements.zipIdx, fun c hc => (hkeys c hc).1,
    perm_stableSort cmp _, ?_, ?_⟩
  · rw [ordered_eq fun c hc => (hkeys c hc).1, ← stableSort_congr hcmp,
      ← stableSort_map (fun a b => OrderSelection.compareAll selections (keysOf a) (keysOf b))
        Prod.fst, List.zipIdx_map_fst]
  · have hsorted : (stableSort cmp elements.zipIdx).Pairwise
        (StandsBefore cmp fun a b => a.2 < b.2) := standsBefore_stableSort hindices
    refine hsorted.imp_of_mem fun {a b} ha hb hbefore => ?_
    have ha := (perm_stableSort cmp _).mem_iff.1 ha
    have hb := (perm_stableSort cmp _).mem_iff.1 hb
    obtain ⟨hlt, heq⟩ := OrderSelection.compareAll_cases (hkeysAt a ha) (hkeysAt b hb) hlength
    rw [hcmp a ha b hb] at hlt heq
    exact hbefore.imp hlt fun h => ⟨heq h.1, h.2⟩

end Ordered

namespace People

/-- People in descending order of their names, the nameless first. -/
def byName : List OrderSelection := [⟨.path ["name"], .descending, .first⟩]

/-- People are put into order, and two of one name stay as they were. -/
theorem people_by_name :
    (∀ s ∈ byName, s.term.SortsOn (.tables registry)
      ([.text "a", .text "b", .null, .text "a"].map cursor)) ∧
    ∃ (keysOf : Cursor → List Value) (sorted : List (Cursor × Nat)),
      sorted.Perm ([Sql.Cell.text "a", .text "b", .null, .text "a"].map cursor).zipIdx ∧
      ordered (.tables registry) byName ([.text "a", .text "b", .null, .text "a"].map cursor) =
        .ok (sorted.map (·.1)) ∧
      sorted.Pairwise (fun a b => OrderSelection.PrecedesAll byName (keysOf a.1) (keysOf b.1) ∨
        List.Forall₂ Value.Level (keysOf a.1) (keysOf b.1) ∧ a.2 < b.2) ∧
      sorted.map (·.1) = [.null, .text "b", .text "a", .text "a"].map cursor := by
  have hsorts : ∀ s ∈ byName, s.term.SortsOn (.tables registry)
      ([.text "a", .text "b", .null, .text "a"].map cursor) := by
    intro s hs
    obtain rfl := List.mem_singleton.1 hs
    refine ⟨.text, fun c hc => ?_⟩
    simp only [List.map_cons, List.map_nil, List.mem_cons, List.not_mem_nil, or_false] at hc
    rcases hc with rfl | rfl | rfl | rfl
    · exact ⟨.string "a", rfl, .inr rfl⟩
    · exact ⟨.string "b", rfl, .inr rfl⟩
    · exact ⟨.null, rfl, .inl rfl⟩
    · exact ⟨.string "a", rfl, .inr rfl⟩
  obtain ⟨keysOf, sorted, -, hperm, hordered, hpairs⟩ := ordered_is_stable hsorts
  have hall : ordered (.tables registry) byName
      ([.text "a", .text "b", .null, .text "a"].map cursor) =
        .ok ([.null, .text "b", .text "a", .text "a"].map cursor) := by rfl
  exact ⟨hsorts, keysOf, sorted, hperm, hordered, hpairs,
    Except.ok.inj (hordered.symm.trans hall)⟩

end People

end MappedQuery
