import MappedQuery.Interpret.Condition
import MappedQuery.Proofs.KeyComparison

/-!
# Comparisons with swapped operands

A comparison says the same of swapped operands, less with greater for one another, if neither of
them or both of them are lists. A list on the left is asked for some element and a list on the right
is taken as a whole, which no value that is no list equals or can be compared with. So with one list
the comparison says the same exactly if no element of the list is as asked.
-/
namespace MappedQuery

theorem Double.equals_comm (x y : Double) : x.equals y = y.equals x := by
  unfold equals
  rw [← compare_swap x y]
  cases x.compare y with
  | none => rfl
  | some o => cases o <;> rfl

namespace Value

def isList : Value → Bool
  | list _ => true
  | _ => false

mutual

/-- The values in a list, at any depth, that are no lists; of another value it alone. -/
def leaves : Value → List Value
  | list values => leavesOfAll values
  | v => [v]

def leavesOfAll : List Value → List Value
  | [] => []
  | v :: rest => leaves v ++ leavesOfAll rest

end

theorem leaves_of_not_list {v : Value} (hv : v.isList = false) : v.leaves = [v] := by
  cases v <;> first | rfl | cases hv

mutual

theorem isList_of_mem_leaves : ∀ {v w : Value}, w ∈ v.leaves → w.isList = false
  | .list _, _, h => isList_of_mem_leavesOfAll h
  | .absent, _, h | .null, _, h | .int _, _, h | .float _, _, h | .string _, _, h
  | .boolean _, _, h | .id _, _, h | .enum _, _, h | .object _, _, h | .reference _, _, h => by
    rw [List.mem_singleton.1 h]
    rfl

theorem isList_of_mem_leavesOfAll : ∀ {vs : List Value} {w : Value}, w ∈ leavesOfAll vs →
    w.isList = false
  | _ :: _, _, h => (List.mem_append.1 h).elim isList_of_mem_leaves isList_of_mem_leavesOfAll

end

mutual

/-- A test holds of some element of a list if it holds of some leaf. -/
theorem holdsOfSome_eq_any (test : Value → Bool) : ∀ v : Value,
    v.holdsOfSome test = v.leaves.any test
  | .list vs => holdsOfSomeElement_eq_any test vs
  | .absent | .null | .int _ | .float _ | .string _ | .boolean _ | .id _ | .enum _ | .object _
  | .reference _ => (Bool.or_false _).symm

theorem holdsOfSomeElement_eq_any (test : Value → Bool) : ∀ vs : List Value,
    holdsOfSomeElement test vs = (leavesOfAll vs).any test
  | [] => rfl
  | v :: vs => by
    rw [holdsOfSomeElement, leavesOfAll, List.any_append, holdsOfSome_eq_any test v,
      holdsOfSomeElement_eq_any test vs]

end

/-! ## Equality and order with swapped operands -/

mutual

theorem equals_comm : ∀ v w : Value, v.equals w = w.equals v
  | .list vs, w => by
    cases w with
    | list ws => exact equalElements_comm vs ws
    | _ => rfl
  | .object ms, w => by
    cases w with
    | object ns => exact equalMembers_comm ms ns
    | _ => rfl
  | .float x, w => by
    cases w with
    | float y => exact Double.equals_comm x y
    | _ => rfl
  | .int _, w | .string _, w | .boolean _, w | .id _, w | .enum _, w | .reference _, w => by
    cases w <;> first | rfl | exact Bool.beq_comm
  | .absent, w | .null, w => by cases w <;> rfl

theorem equalElements_comm : ∀ vs ws : List Value, equalElements vs ws = equalElements ws vs
  | [], [] | [], _ :: _ | _ :: _, [] => rfl
  | v :: vs, w :: ws => by
    rw [equalElements, equalElements, equals_comm v w, equalElements_comm vs ws]

theorem equalMembers_comm : ∀ ms ns : List (String × Value), equalMembers ms ns = equalMembers ns ms
  | [], [] | [], _ :: _ | _ :: _, [] => rfl
  | (k, v) :: ms, (l, w) :: ns => by
    rw [equalMembers, equalMembers, equals_comm v w, equalMembers_comm ms ns, Bool.beq_comm]

end

theorem looselyEquals_of_not_list {v w : Value} (h : v.isList = false ∨ w.isList = false) :
    v.looselyEquals w = (v.compare w == some .eq || v.equals w) := by
  cases v <;> cases w <;> first | rfl | rcases h with h | h <;> cases h

theorem compare_eq_eq_comm (v w : Value) :
    (v.compare w == some .eq) = (w.compare v == some .eq) := by
  rw [← compare_swap v w]
  cases v.compare w with
  | none => rfl
  | some o => cases o <;> rfl

mutual

theorem looselyEquals_comm : ∀ v w : Value, v.looselyEquals w = w.looselyEquals v
  | .list vs, w => by
    cases w with
    | list ws => exact looselyEqualElements_comm vs ws
    | _ =>
      rw [looselyEquals_of_not_list (.inr rfl), looselyEquals_of_not_list (.inl rfl),
        compare_eq_eq_comm, equals_comm]
  | .absent, w | .null, w | .int _, w | .float _, w | .string _, w | .boolean _, w | .id _, w
  | .enum _, w | .object _, w | .reference _, w => by
    rw [looselyEquals_of_not_list (.inl rfl), looselyEquals_of_not_list (.inr rfl),
      compare_eq_eq_comm, equals_comm]

theorem looselyEqualElements_comm : ∀ vs ws : List Value,
    looselyEqualElements vs ws = looselyEqualElements ws vs
  | [], [] | [], _ :: _ | _ :: _, [] => rfl
  | v :: vs, w :: ws => by
    rw [looselyEqualElements, looselyEqualElements, looselyEquals_comm v w,
      looselyEqualElements_comm vs ws]

end

theorem any_compare_swap (accept : Ordering → Bool) (v w : Value) :
    (w.compare v).any accept = (v.compare w).any fun o => accept o.swap := by
  rw [← compare_swap v w, Option.any_map]

/-! ## A list and a value that is none -/

theorem compare_of_isList_ne {v w : Value} (h : v.isList ≠ w.isList) : v.compare w = none := by
  cases v <;> cases w <;> first | rfl | exact absurd rfl h

theorem looselyEquals_of_isList_ne {v w : Value} (h : v.isList ≠ w.isList) :
    v.looselyEquals w = false := by
  cases v <;> cases w <;> first | rfl | exact absurd rfl h

end Value

namespace Predicate

/-- Comparisons that ask the same of swapped operands, and what they ask of the left operand, or of
an element of it, and the right one. -/
inductive Mirrored : (Term → Term → Predicate) → (Term → Term → Predicate) →
    (Value → Value → Bool) → Prop
  | eq : Mirrored .eq .eq Value.looselyEquals
  | ne : Mirrored .ne .ne Value.looselyEquals
  | lt : Mirrored .lt .gt fun v w => (v.compare w).any (·.isLT)
  | le : Mirrored .le .ge fun v w => (v.compare w).any (·.isLE)

section Operands

variable {m : Mapping} {c : Cursor} {a b : Term} {v w : Value}

theorem equates_of_values (ha : a.value m c = .ok v) (hb : b.value m c = .ok w) :
    equates m c a b = .ok (v.leaves.any (·.looselyEquals w)) := by
  rw [equates, ha, hb]
  exact congrArg Except.ok (Value.holdsOfSome_eq_any _ v)

theorem comparesAs_of_values (accept : Ordering → Bool) (ha : a.value m c = .ok v)
    (hb : b.value m c = .ok w) :
    comparesAs m c accept a b = .ok (v.leaves.any fun v => (v.compare w).any accept) := by
  rw [comparesAs, ha, hb]
  exact congrArg Except.ok (Value.holdsOfSome_eq_any _ v)

end Operands

namespace Mirrored

variable {p q : Term → Term → Predicate} {test : Value → Value → Bool} {v w : Value}

/-- A list and a value that is none are not as asked. -/
theorem test_of_isList_ne (h : Mirrored p q test) (hne : v.isList ≠ w.isList) :
    test v w = false := by
  cases h with
  | eq | ne => exact Value.looselyEquals_of_isList_ne hne
  | lt | le => exact congrArg (Option.any _) (Value.compare_of_isList_ne hne)

theorem any_leaves_of_isList_right (h : Mirrored p q test) (hw : w.isList = true) :
    (v.leaves.any fun x => test x w) = false := by
  refine List.any_eq_false.2 fun x hx => ?_
  rw [h.test_of_isList_ne (by rw [Value.isList_of_mem_leaves hx, hw]; decide)]
  decide

theorem any_leaves_of_isList_left (h : Mirrored p q test) (hv : v.isList = true) :
    w.leaves.any (test v) = false := by
  refine List.any_eq_false.2 fun y hy => ?_
  rw [h.test_of_isList_ne (by rw [Value.isList_of_mem_leaves hy, hv]; decide)]
  decide

/-- The left operand has an element as asked of the right one exactly if the right one has an
element that the left one is as asked of. -/
theorem any_leaves_eq_iff (h : Mirrored p q test) :
    (v.leaves.any fun x => test x w) = w.leaves.any (test v) ↔
      v.isList = w.isList ∨ ∀ x ∈ v.leaves, ∀ y ∈ w.leaves, test x y = false := by
  -- the comparison that has the only list on its right never holds
  cases hv : v.isList <;> cases hw : w.isList
  · simp [Value.leaves_of_not_list hv, Value.leaves_of_not_list hw]
  · rw [h.any_leaves_of_isList_right hw, Value.leaves_of_not_list hv, eq_comm, List.any_eq_false]
    simp
  · rw [h.any_leaves_of_isList_left hv, Value.leaves_of_not_list hw, List.any_eq_false]
    simp
  · simp [h.any_leaves_of_isList_right hw, h.any_leaves_of_isList_left hv]

/-- Whether each of two mirrored comparisons holds is told alike by what is asked of the elements
of its left operand. -/
theorem exists_holds (h : Mirrored p q test) {m : Mapping} {c : Cursor} {a b : Term}
    (ha : a.value m c = .ok v) (hb : b.value m c = .ok w) :
    ∃ f : Bool → Bool, f.Injective ∧
      (p a b).holds m c = .ok (f (v.leaves.any fun x => test x w)) ∧
      (q b a).holds m c = .ok (f (w.leaves.any (test v))) := by
  cases h with
  | eq =>
    refine ⟨id, Function.injective_id, equates_of_values ha hb, ?_⟩
    rw [holds, equates_of_values hb ha]
    simp only [Value.looselyEquals_comm _ v, id]
  | ne =>
    refine ⟨Bool.not, Bool.involutive_not.injective, ?_, ?_⟩
    · rw [holds, equates_of_values ha hb]
      rfl
    · rw [holds, equates_of_values hb ha]
      simp only [Value.looselyEquals_comm _ v]
      rfl
  | lt =>
    refine ⟨id, Function.injective_id, comparesAs_of_values _ ha hb, ?_⟩
    rw [holds, comparesAs_of_values _ hb ha]
    simp only [Value.any_compare_swap _ v, Ordering.isGT_swap, id]
  | le =>
    refine ⟨id, Function.injective_id, comparesAs_of_values _ ha hb, ?_⟩
    rw [holds, comparesAs_of_values _ hb ha]
    simp only [Value.any_compare_swap _ v, Ordering.isGE_swap, id]

end Mirrored

/-- Comparisons with swapped operands say the same exactly if both or neither of the operands are
lists, or no element of the one that is a list is as asked. -/
theorem mirrored_comparisons_agree_iff {p q : Term → Term → Predicate}
    {test : Value → Value → Bool} {m : Mapping} {c : Cursor} {a b : Term} {v w : Value}
    (hmirrored : Mirrored p q test) (ha : a.value m c = .ok v) (hb : b.value m c = .ok w) :
    ∃ s t, (p a b).holds m c = .ok s ∧ (q b a).holds m c = .ok t ∧
      (s = t ↔ v.isList = w.isList ∨ ∀ x ∈ v.leaves, ∀ y ∈ w.leaves, test x y = false) := by
  obtain ⟨f, hf, hp, hq⟩ := hmirrored.exists_holds ha hb
  exact ⟨_, _, hp, hq, hf.eq_iff.trans hmirrored.any_leaves_eq_iff⟩

end Predicate

namespace Havens

def registry : DocumentRegistry where
  schema := .ofTypes [
    .object ⟨"Query", [⟨"haven", [], .named "Haven"⟩], []⟩,
    .object ⟨"Haven", [⟨"name", [], .named "String"⟩, ⟨"tags", [], .list (.named "String")⟩,
      ⟨"depths", [], .list (.list (.named "Int"))⟩], []⟩] "Query"
  types := [
    .object ⟨"Haven", [.source (.same "name"), .source (.same "tags"), .source (.same "depths")]⟩]
  elaborators := []

/-- A haven with two tags and the depths of two basins. -/
def hoorn : Cursor where
  path := ["haven"]
  type := .named "Haven"
  focus := .document registry (.object [("name", .string "Hoorn"),
    ("tags", .array [.string "port", .string "old"]),
    ("depths", .array [.array [.integer 4, .integer 6], .array [.integer 3]])])

/-- A path through a list equals a text that is among its elements, but the text does not equal the
path. -/
theorem tags_equal_port_on_the_left :
    (Predicate.eq (.path ["tags"]) (.const (.string "port"))).holds (.documents registry) hoorn =
        .ok true ∧
      (Predicate.eq (.const (.string "port")) (.path ["tags"])).holds (.documents registry) hoorn =
        .ok false := by
  exact ⟨rfl, rfl⟩

/-- A depth in a list of lists is less than four, but four is not greater than the depths. -/
theorem depths_are_less_on_the_left :
    (Predicate.lt (.path ["depths"]) (.const (.int 4))).holds (.documents registry) hoorn ≠
      (Predicate.gt (.const (.int 4)) (.path ["depths"])).holds (.documents registry) hoorn := by
  have hdepths : Term.value (.documents registry) hoorn (.path ["depths"]) =
      .ok (.list [.list [.int 4, .int 6], .list [.int 3]]) := rfl
  obtain ⟨s, t, hs, ht, hagree⟩ := Predicate.mirrored_comparisons_agree_iff .lt hdepths
    (rfl : Term.value (.documents registry) hoorn (.const (.int 4)) = .ok (.int 4))
  rw [hs, ht]
  intro h
  injection h with h
  rcases hagree.1 h with hlists | hno
  · cases hlists
  · have hthree : Value.int 3 ∈ (Value.list [.list [.int 4, .int 6], .list [.int 3]]).leaves := by
      simp [Value.leaves, Value.leavesOfAll]
    cases hno _ hthree (.int 4) (List.mem_singleton_self _)

end Havens

end MappedQuery
