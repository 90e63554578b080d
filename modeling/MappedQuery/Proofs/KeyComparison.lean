import Mathlib.Data.Set.Basic
import Mathlib.Data.String.Basic
import MappedQuery.Interpret.Sorting
import MappedQuery.Proofs.Pushdown
import MappedQuery.Proofs.RoundedIntegers

/-!
# The comparison of keys

Keys that cannot be compared count as equal, and a whole number is compared with a double as the
double it is rounded to. So the comparison that elements are sorted by is reflexive and reversed
by swapping its arguments, but a key can count as equal to two that differ: `Value.GoBetween` says
which. These are all that keeps the comparison from being transitive.
-/
namespace MappedQuery

namespace Value

/-- What values are compared by. -/
inductive Scale where
  | number
  | truth
  | text
deriving DecidableEq

/-- The scale that a value is on; not-a-number, lists, objects and missing values are on none. -/
def scale? (v : Value) : Option Scale :=
  match v with
  | int _ => some .number
  | float x => if x.isNaN then none else some .number
  | boolean _ => some .truth
  | string _ | id _ | enum _ => some .text
  | _ => none

/-- The place of a number among the doubles, that of a whole one rounded. -/
def rounded (v : Value) : Int := (v.asDouble?.map Double.orderKey).getD 0

theorem compare_swap (v w : Value) : (v.compare w).map Ordering.swap = w.compare v := by
  cases v <;> cases w <;> first
    | rfl
    | exact congrArg some Std.OrientedCmp.eq_swap.symm
    | exact Double.compare_swap _ _

theorem compare_eq_gt_iff {v w : Value} : v.compare w = some .gt ↔ w.compare v = some .lt := by
  rw [← compare_swap w v]
  cases w.compare v with
  | none => simp
  | some o => cases o <;> simp

/-- Data can be compared if they are on one scale. -/
theorem compare_eq_none_iff {v w : Value} (hv : v.isEmpty = false) :
    v.compare w = none ↔ ¬ ∃ scale, v.scale? = some scale ∧ w.scale? = some scale := by
  cases v with
  | absent | null => cases hv
  | _ => cases w <;> simp [compare, scale?, asString?, Double.compare, Double.isNaN_ofInt]

theorem compare_self (v : Value) : (v.compare v).getD .eq = .eq := by
  cases v <;> simp [compare, asString?, Double.compare]
  split <;> simp

theorem isEmpty_of_compare_gt {v w : Value} (h : v.compare w = some .gt) :
    v.isEmpty = false ∧ w.isEmpty = false := by
  cases v <;> cases w <;> first | exact ⟨rfl, rfl⟩ | cases h

theorem exists_scale {v w : Value} (h : v.compare w = some .gt) :
    ∃ scale, v.scale? = some scale ∧ w.scale? = some scale := by
  apply not_not.1
  intro hno
  rw [(compare_eq_none_iff (isEmpty_of_compare_gt h).1).2 hno] at h
  cases h

theorem exists_text_of_scale {v : Value} (h : v.scale? = some .text) :
    ∃ s, v.asString? = some s := by
  cases v with
  | float x => cases hx : x.isNaN <;> simp [scale?, hx] at h
  | _ => first | exact ⟨_, rfl⟩ | cases h

theorem exists_boolean_of_scale {v : Value} (h : v.scale? = some .truth) :
    ∃ b, v = boolean b := by
  cases v with
  | float x => cases hx : x.isNaN <;> simp [scale?, hx] at h
  | _ => first | exact ⟨_, rfl⟩ | cases h

section Numbers

variable {v w : Value}

theorem number_cases (h : v.scale? = some .number) :
    (∃ n, v = int n) ∨ ∃ x, v = float x ∧ x.isNaN = false := by
  cases v with
  | int n => exact .inl ⟨n, rfl⟩
  | float x =>
    refine .inr ⟨x, rfl, ?_⟩
    cases hx : x.isNaN <;> simp [scale?, hx] at h ⊢
  | _ => cases h

/-- Numbers are compared exactly if both are whole, and by the doubles that they are rounded to
otherwise. -/
theorem compare_numbers (hv : v.scale? = some .number) (hw : w.scale? = some .number) :
    (∃ a b : Int64, v = int a ∧ w = int b) ∨
      v.compare w = some (Ord.compare v.rounded w.rounded) := by
  rcases number_cases hv with ⟨a, rfl⟩ | ⟨x, rfl, hx⟩
  · rcases number_cases hw with ⟨b, rfl⟩ | ⟨y, rfl, hy⟩
    · exact .inl ⟨a, b, rfl, rfl⟩
    · exact .inr (by simp [compare, rounded, asDouble?, Double.compare, Double.isNaN_ofInt, hy])
  · rcases number_cases hw with ⟨b, rfl⟩ | ⟨y, rfl, hy⟩
    · exact .inr (by simp [compare, rounded, asDouble?, Double.compare, Double.isNaN_ofInt, hx])
    · exact .inr (by simp [compare, rounded, asDouble?, Double.compare, hx, hy])

/-- A number that does not come after another is not rounded to a greater double. -/
theorem rounded_le (hv : v.scale? = some .number) (hw : w.scale? = some .number)
    (h : v.compare w ≠ some .gt) : v.rounded ≤ w.rounded := by
  rcases compare_numbers hv hw with ⟨a, b, rfl, rfl⟩ | hcompare
  · have hle : a.toInt ≤ b.toInt := by
      apply Int.not_lt.1
      intro hgt
      exact h (congrArg some (compare_gt_iff_gt.2 hgt))
    exact Double.orderKey_ofInt_mono hle
  · apply Int.not_lt.1
    intro hgt
    exact h (hcompare.trans (congrArg some (compare_gt_iff_gt.2 hgt)))

end Numbers

/-- A value that counts as equal to two values of which the first comes after the second: one that
cannot be compared with them, or the double that both are rounded to. -/
inductive GoBetween : Value → Value → Value → Prop
  | incomparable {u v w : Value} : u.compare w = some .gt → v.isEmpty = false →
    v.compare u = none → GoBetween u v w
  | rounding {a b : Int64} {x : Double} : b.toInt < a.toInt →
    (Double.ofInt a.toInt).compare x = some .eq → x.compare (Double.ofInt b.toInt) = some .eq →
    GoBetween (int a) (float x) (int b)

namespace GoBetween

variable {u v w : Value}

theorem compare_gt (h : GoBetween u v w) : u.compare w = some .gt := by
  cases h with
  | incomparable hgt => exact hgt
  | rounding hlt => exact congrArg some (compare_gt_iff_gt.2 hlt)

theorem isEmpty (h : GoBetween u v w) : v.isEmpty = false := by
  cases h with
  | incomparable _ hv => exact hv
  | rounding => rfl

/-- A go-between counts as equal to both. -/
theorem ties (h : GoBetween u v w) :
    (u.compare v).getD .eq = .eq ∧ (v.compare w).getD .eq = .eq := by
  cases h with
  | incomparable hgt hv hnone =>
    obtain ⟨scale, hu, hw⟩ := exists_scale hgt
    have hvw : v.compare w = none := by
      rw [compare_eq_none_iff hv] at hnone ⊢
      rintro ⟨other, hv, hw'⟩
      rw [hw] at hw'
      cases hw'
      exact hnone ⟨scale, hv, hu⟩
    have huv : u.compare v = none := by rw [← compare_swap, hnone, Option.map_none]
    rw [huv, hvw]
    exact ⟨rfl, rfl⟩
  | rounding _ hu hw =>
    refine ⟨?_, ?_⟩
    · change ((Double.ofInt _).compare _).getD .eq = .eq
      rw [hu]
      rfl
    · change (Double.compare _ (Double.ofInt _)).getD .eq = .eq
      rw [hw]
      rfl

/-- Among numbers only the double that two whole ones are rounded to goes between them. -/
theorem of_numbers (hu : u.scale? = some .number) (hv : v.scale? = some .number)
    (hw : w.scale? = some .number) (huv : u.compare v ≠ some .gt) (hvw : v.compare w ≠ some .gt)
    (huw : u.compare w = some .gt) : GoBetween u v w := by
  have hle := rounded_le hu hv huv
  have hle' := rounded_le hv hw hvw
  have hge : w.rounded ≤ u.rounded := rounded_le hw hu (by simp [compare_eq_gt_iff, huw])
  have hsame : u.rounded = v.rounded ∧ v.rounded = w.rounded := by omega
  rcases compare_numbers hu hw with ⟨a, b, rfl, rfl⟩ | hcompare
  · have hba : b.toInt < a.toInt := compare_gt_iff_gt.1 (Option.some.inj huw)
    rcases number_cases hv with ⟨c, rfl⟩ | ⟨x, rfl, -⟩
    · have hac : ¬ c.toInt < a.toInt := fun hgt => huv (congrArg some (compare_gt_iff_gt.2 hgt))
      have hcb : ¬ b.toInt < c.toInt := fun hgt => hvw (congrArg some (compare_gt_iff_gt.2 hgt))
      omega
    · have hax := (compare_numbers hu hv).resolve_left (by simp)
      have hxb := (compare_numbers hv hw).resolve_left (by simp)
      rw [hsame.1, compare_eq_iff_eq.2 rfl] at hax
      rw [hsame.2, compare_eq_iff_eq.2 rfl] at hxb
      exact .rounding hba hax hxb
  · rw [hcompare, compare_eq_iff_eq.2 (hsame.1.trans hsame.2)] at huw
    cases huw

private theorem ne_gt_trans {α : Type} [Ord α] [Std.TransOrd α] {a b c : α}
    (hab : some (Ord.compare a b) ≠ some .gt) (hbc : some (Ord.compare b c) ≠ some .gt) :
    some (Ord.compare a c) ≠ some .gt := by
  have hle {a b : α} : some (Ord.compare a b) ≠ some .gt ↔ (Ord.compare a b).isLE := by
    cases Ord.compare a b <;> simp
  rw [hle] at hab hbc ⊢
  exact Std.TransCmp.isLE_trans hab hbc

/-- Where the comparison is not transitive, there is a go-between. -/
theorem of_compare_gt (hv : v.isEmpty = false) (huv : u.compare v ≠ some .gt)
    (hvw : v.compare w ≠ some .gt) (huw : u.compare w = some .gt) : GoBetween u v w := by
  by_cases hnone : v.compare u = none
  · exact .incomparable huw hv hnone
  rw [compare_eq_none_iff hv, not_not] at hnone
  obtain ⟨scale, hv, hu⟩ := hnone
  obtain ⟨_, hu', hw⟩ := exists_scale huw
  rw [hu] at hu'
  cases hu'
  cases scale with
  | number => exact of_numbers hu hv hw huv hvw huw
  | truth =>
    obtain ⟨a, rfl⟩ := exists_boolean_of_scale hu
    obtain ⟨b, rfl⟩ := exists_boolean_of_scale hv
    obtain ⟨c, rfl⟩ := exists_boolean_of_scale hw
    exact absurd huw (ne_gt_trans huv hvw)
  | text =>
    obtain ⟨r, hr⟩ := exists_text_of_scale hu
    obtain ⟨s, hs⟩ := exists_text_of_scale hv
    obtain ⟨t, ht⟩ := exists_text_of_scale hw
    rw [compare_of_asString hr hs] at huv
    rw [compare_of_asString hs ht] at hvw
    rw [compare_of_asString hr ht] at huw
    exact absurd huw (ne_gt_trans huv hvw)

end GoBetween

end Value

namespace OrderSelection

section Keys

variable {s : OrderSelection} {u v w : Value}

theorem compareKeys_self (s : OrderSelection) (v : Value) : s.compareKeys v v = .eq := by
  have hself := v.compare_self
  unfold compareKeys
  cases v.isEmpty with
  | true => rfl
  | false =>
    dsimp only
    rw [hself]
    cases s.sort <;> rfl

theorem compareKeys_swap (s : OrderSelection) (v w : Value) :
    (s.compareKeys v w).swap = s.compareKeys w v := by
  have hswap : ((v.compare w).getD .eq).swap = (w.compare v).getD .eq := by
    rw [← Value.compare_swap v w]
    cases v.compare w <;> rfl
  unfold compareKeys
  cases v.isEmpty <;> cases w.isEmpty <;> cases s.nulls <;> cases s.sort <;>
    first | rfl | exact hswap | exact congrArg Ordering.swap hswap

/-- Keys that carry data are compared in the direction of the selection. -/
theorem compareKeys_eq_gt_iff (hv : v.isEmpty = false) (hw : w.isEmpty = false) :
    s.compareKeys v w = .gt ↔
      s.sort = .ascending ∧ v.compare w = some .gt ∨
        s.sort = .descending ∧ w.compare v = some .gt := by
  have hgt {x y : Value} : (x.compare y).getD .eq = .gt ↔ x.compare y = some .gt := by
    cases x.compare y <;> simp
  have hlt {x y : Value} : (x.compare y).getD .eq = .lt ↔ x.compare y = some .lt := by
    cases x.compare y <;> simp
  unfold compareKeys
  rw [hv, hw]
  cases s.sort with
  | ascending => simp [hgt]
  | descending => simp [hlt, Value.compare_eq_gt_iff]

/-- The comparison of keys is transitive on some values. -/
def TransitiveOn (s : OrderSelection) (values : Set Value) : Prop :=
  ∀ u ∈ values, ∀ v ∈ values, ∀ w ∈ values,
    s.compareKeys u v ≠ .gt → s.compareKeys v w ≠ .gt → s.compareKeys u w ≠ .gt

/-- Missing keys do not keep the comparison from being transitive. -/
private theorem compareKeys_trans_of_missing
    (h : u.isEmpty = true ∨ v.isEmpty = true ∨ w.isEmpty = true)
    (huv : s.compareKeys u v ≠ .gt) (hvw : s.compareKeys v w ≠ .gt) :
    s.compareKeys u w ≠ .gt := by
  unfold compareKeys at *
  cases hu : u.isEmpty <;> cases hv : v.isEmpty <;> cases hw : w.isEmpty <;> cases hn : s.nulls <;>
    simp_all

/-- Go-betweens are all that keeps the comparison of keys from being transitive. -/
theorem transitiveOn_iff {values : Set Value} : s.TransitiveOn values ↔
    ∀ u ∈ values, ∀ v ∈ values, ∀ w ∈ values, ¬ Value.GoBetween u v w := by
  constructor
  · intro h u hu v hv w hw hbetween
    obtain ⟨hdataU, hdataW⟩ := Value.isEmpty_of_compare_gt hbetween.compare_gt
    have hdataV := hbetween.isEmpty
    have huv : u.compare v ≠ some .gt := fun hgt => by simpa [hgt] using hbetween.ties.1
    have hvw : v.compare w ≠ some .gt := fun hgt => by simpa [hgt] using hbetween.ties.2
    cases hs : s.sort with
    | ascending =>
      apply h u hu v hv w hw
      · simpa [compareKeys_eq_gt_iff hdataU hdataV, hs] using huv
      · simpa [compareKeys_eq_gt_iff hdataV hdataW, hs] using hvw
      · simpa [compareKeys_eq_gt_iff hdataU hdataW, hs] using hbetween.compare_gt
    | descending =>
      apply h w hw v hv u hu
      · simpa [compareKeys_eq_gt_iff hdataW hdataV, hs] using hvw
      · simpa [compareKeys_eq_gt_iff hdataV hdataU, hs] using huv
      · simpa [compareKeys_eq_gt_iff hdataW hdataU, hs] using hbetween.compare_gt
  · intro h u hu v hv w hw huv hvw huw
    by_cases hmissing : u.isEmpty = true ∨ v.isEmpty = true ∨ w.isEmpty = true
    · exact compareKeys_trans_of_missing hmissing huv hvw huw
    simp only [not_or, Bool.not_eq_true] at hmissing
    obtain ⟨hdataU, hdataV, hdataW⟩ := hmissing
    rw [Ne, compareKeys_eq_gt_iff hdataU hdataV] at huv
    rw [Ne, compareKeys_eq_gt_iff hdataV hdataW] at hvw
    rw [compareKeys_eq_gt_iff hdataU hdataW] at huw
    rcases huw with ⟨hs, huw⟩ | ⟨hs, hwu⟩
    · exact h u hu v hv w hw (.of_compare_gt hdataV (fun hgt => huv (.inl ⟨hs, hgt⟩))
        (fun hgt => hvw (.inl ⟨hs, hgt⟩)) huw)
    · exact h w hw v hv u hu (.of_compare_gt hdataV (fun hgt => hvw (.inr ⟨hs, hgt⟩))
        (fun hgt => huv (.inr ⟨hs, hgt⟩)) hwu)

end Keys

section AllKeys

theorem compareAll_self (selections : List OrderSelection) (keys : List Value) :
    compareAll selections keys keys = .eq := by
  induction selections generalizing keys with
  | nil => rw [compareAll]; simp
  | cons s rest ih =>
    cases keys with
    | nil => rw [compareAll]; simp
    | cons v vs => rw [compareAll, compareKeys_self, ih, Ordering.eq_then]

theorem compareAll_swap (selections : List OrderSelection) (vs ws : List Value) :
    (compareAll selections vs ws).swap = compareAll selections ws vs := by
  induction selections generalizing vs ws with
  | nil => simp [compareAll]
  | cons s rest ih =>
    cases vs with
    | nil => simp [compareAll]
    | cons v vs =>
      cases ws with
      | nil => simp [compareAll]
      | cons w ws => rw [compareAll, compareAll, Ordering.swap_then, compareKeys_swap, ih]

/-- Keys for selections, each out of the values that its selection may have. -/
def KeysIn (sets : List (Set Value)) (keys : List Value) : Prop :=
  List.Forall₂ (fun key values => key ∈ values) keys sets

/-- The comparison of elements is transitive on keys out of some values. -/
def TransitiveOnAll (selections : List OrderSelection) (sets : List (Set Value)) : Prop :=
  ∀ us vs ws, KeysIn sets us → KeysIn sets vs → KeysIn sets ws →
    compareAll selections us vs ≠ .gt → compareAll selections vs ws ≠ .gt →
    compareAll selections us ws ≠ .gt

variable {s : OrderSelection} {rest : List OrderSelection} {values : Set Value}
  {sets : List (Set Value)}

theorem exists_keysIn (h : ∀ values ∈ sets, values.Nonempty) : ∃ keys, KeysIn sets keys := by
  induction sets with
  | nil => exact ⟨[], .nil⟩
  | cons values sets ih =>
    obtain ⟨⟨v, hv⟩, hrest⟩ := List.forall_mem_cons.1 h
    obtain ⟨vs, hvs⟩ := ih hrest
    exact ⟨v :: vs, .cons hv hvs⟩

/-- One selection after the other is transitive if each of them is. -/
theorem TransitiveOn.cons (h : s.TransitiveOn values) (hrest : TransitiveOnAll rest sets) :
    TransitiveOnAll (s :: rest) (values :: sets) := by
  intro us vs ws hus hvs hws huv hvw
  cases hus with | @cons u _ us _ hu hus =>
  cases hvs with | @cons v _ vs _ hv hvs =>
  cases hws with | @cons w _ ws _ hw hws =>
  have hthen {o p : Ordering} : o.then p ≠ .gt ↔ o ≠ .gt ∧ (o = .eq → p ≠ .gt) := by
    cases o <;> simp
  rw [compareAll, hthen] at huv hvw ⊢
  refine ⟨h u hu v hv w hw huv.1 hvw.1, fun heq => ?_⟩
  -- keys between two that are level are level with both
  have hwu : s.compareKeys w u ≠ .gt := by simp [← compareKeys_swap s u w, heq]
  have hvu := h v hv w hw u hu hvw.1 hwu
  have hwv := h w hw u hu v hv hwu huv.1
  rw [← compareKeys_swap] at hvu hwv
  have huvEq : s.compareKeys u v = .eq := by
    cases hcompare : s.compareKeys u v <;> simp_all
  have hvwEq : s.compareKeys v w = .eq := by
    cases hcompare : s.compareKeys v w <;> simp_all
  exact hrest us vs ws hus hvs hws (huv.2 huvEq) (hvw.2 hvwEq)

theorem transitiveOnAll_cons (hvalues : values.Nonempty) (hsets : ∀ values ∈ sets, values.Nonempty) :
    TransitiveOnAll (s :: rest) (values :: sets) ↔
      s.TransitiveOn values ∧ TransitiveOnAll rest sets := by
  constructor
  · intro h
    constructor
    · intro u hu v hv w hw huv hvw
      obtain ⟨keys, hkeys⟩ := exists_keysIn hsets
      have hthen {v w : Value} : compareAll (s :: rest) (v :: keys) (w :: keys) =
          s.compareKeys v w := by
        rw [compareAll, compareAll_self, Ordering.then_eq]
      rw [← hthen] at huv hvw ⊢
      exact h _ _ _ (.cons hu hkeys) (.cons hv hkeys) (.cons hw hkeys) huv hvw
    · intro us vs ws hus hvs hws huv hvw
      obtain ⟨key, hkey⟩ := hvalues
      have hthen {vs ws : List Value} : compareAll (s :: rest) (key :: vs) (key :: ws) =
          compareAll rest vs ws := by
        rw [compareAll, compareKeys_self, Ordering.eq_then]
      rw [← hthen] at huv hvw ⊢
      exact h _ _ _ (.cons hkey hus) (.cons hkey hvs) (.cons hkey hws) huv hvw
  · rintro ⟨h, hrest⟩
    exact h.cons hrest

/-- The comparison that elements are sorted by is reflexive and reversed by swapping its arguments,
and it is transitive exactly if no selection may have a value that goes between two of its others. -/
theorem compareAll_transitive_iff {selections : List OrderSelection} {sets : List (Set Value)}
    (hlength : selections.length = sets.length) (hsets : ∀ values ∈ sets, values.Nonempty) :
    (∀ keys, compareAll selections keys keys = .eq) ∧
      (∀ vs ws, compareAll selections vs ws = (compareAll selections ws vs).swap) ∧
      (TransitiveOnAll selections sets ↔ ∀ values ∈ sets, ∀ u ∈ values, ∀ v ∈ values,
        ∀ w ∈ values, ¬ Value.GoBetween u v w) := by
  refine ⟨compareAll_self selections, fun vs ws => (compareAll_swap selections ws vs).symm, ?_⟩
  induction selections generalizing sets with
  | nil =>
    obtain rfl := List.eq_nil_of_length_eq_zero hlength.symm
    simp [TransitiveOnAll, compareAll]
  | cons s rest ih =>
    cases sets with
    | nil => cases hlength
    | cons values sets =>
      obtain ⟨hvalues, hsets⟩ := List.forall_mem_cons.1 hsets
      rw [transitiveOnAll_cons hvalues hsets, transitiveOn_iff, ih (Nat.succ.inj hlength) hsets,
        List.forall_mem_cons]

end AllKeys

end OrderSelection

namespace Sizes

open OrderSelection

/-- Sizes in ascending order, the missing ones first. -/
def bySize : List OrderSelection := [.ascending (.path ["size"])]

def wholeNumbers : Set Value := {v | ∃ n, v = .int n}

/-- Whole numbers and a text. -/
def mixed : Set Value := {.int 2, .string "x", .int 1}

/-- Whole numbers are in order, but not if a text is among them. -/
theorem whole_sizes_are_transitive :
    bySize.length = [wholeNumbers].length ∧ (∀ values ∈ [wholeNumbers], values.Nonempty) ∧
      (∀ values ∈ [mixed], values.Nonempty) ∧ TransitiveOnAll bySize [wholeNumbers] ∧
      ¬ TransitiveOnAll bySize [mixed] := by
  have hwhole : ∀ values ∈ [wholeNumbers], values.Nonempty := by
    simpa using ⟨.int 0, 0, rfl⟩
  have hmixed : ∀ values ∈ [mixed], values.Nonempty := by
    simpa using ⟨.int 2, .inl rfl⟩
  refine ⟨rfl, hwhole, hmixed, ?_, fun h => ?_⟩
  · apply (compareAll_transitive_iff rfl hwhole).2.2.2
    intro values hvalues
    obtain rfl := List.mem_singleton.1 hvalues
    rintro _ ⟨a, rfl⟩ _ ⟨b, rfl⟩ _ ⟨c, rfl⟩ hbetween
    cases hbetween with
    | incomparable _ _ hnone => cases hnone
  · have hnone := (compareAll_transitive_iff rfl hmixed).2.2.1 h mixed (List.mem_singleton.2 rfl)
    refine hnone (.int 2) (.inl rfl) (.string "x") (.inr (.inl rfl)) (.int 1) (.inr (.inr rfl)) ?_
    exact .incomparable rfl rfl rfl

/-- Of three sizes the first counts as equal to the second and the second to the third, but the
first comes after the third; sorting leaves the greater before the smaller. -/
theorem rounded_sizes_are_out_of_order :
    compareAll bySize [.int 9007199254740993] [.float ⟨0x4340000000000000⟩] = .eq ∧
      compareAll bySize [.float ⟨0x4340000000000000⟩] [.int 9007199254740992] = .eq ∧
      compareAll bySize [.int 9007199254740993] [.int 9007199254740992] = .gt ∧
      stableSort (compareAll bySize)
          [[.int 9007199254740993], [.float ⟨0x4340000000000000⟩], [.int 9007199254740992]] =
        [[.int 9007199254740993], [.float ⟨0x4340000000000000⟩], [.int 9007199254740992]] := by
  refine ⟨by rfl, by rfl, by rfl, by rfl⟩

end Sizes

end MappedQuery
