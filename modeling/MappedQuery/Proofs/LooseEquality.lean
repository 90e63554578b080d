import MappedQuery.Proofs.MirroredComparisons
import MappedQuery.Proofs.ValueDocuments

/-!
# Loose equality

Values without doubles are loosely equal exactly if they are the same value once each text, on its
own or inside of lists, is spelled as a string. So loose equality is an equivalence on them, and
candidates that a value is compared with can be put in another order or spelled otherwise. The type
of an object is told by the first case that its discriminator equals: the order of the cases counts
where two that are loosely equal tell different types.
-/
namespace MappedQuery

open Sql

namespace Value

mutual

/-- The value with each text spelled as a string, but for those in input objects. -/
def spelled : Value → Value
  | id s => string s
  | enum s => string s
  | list values => list (spelledAll values)
  | v => v

def spelledAll : List Value → List Value
  | [] => []
  | v :: rest => spelled v :: spelledAll rest

end

/-! ## Equality kind by kind -/

mutual

theorem equals_iff_eq : ∀ {v w : Value}, v.isFloatFree = true → (v.equals w = true ↔ v = w)
  | .list vs, w, h => by
    cases w with
    | list ws => rw [equals, equalElements_iff_eq h, list.injEq]
    | _ => simp [equals]
  | .object ms, w, h => by
    cases w with
    | object ns => rw [equals, equalMembers_iff_eq h, object.injEq]
    | _ => simp [equals]
  | .float _, _, h => nomatch h
  | .absent, w, _ | .null, w, _ | .int _, w, _ | .string _, w, _ | .boolean _, w, _
  | .id _, w, _ | .enum _, w, _ | .reference _, w, _ => by cases w <;> simp [equals]

theorem equalElements_iff_eq : ∀ {vs ws : List Value}, areFloatFree vs = true →
    (equalElements vs ws = true ↔ vs = ws)
  | [], [], _ | [], _ :: _, _ | _ :: _, [], _ => by simp [equalElements]
  | v :: vs, w :: ws, h => by
    rw [areFloatFree, Bool.and_eq_true] at h
    rw [equalElements, Bool.and_eq_true, equals_iff_eq h.1, equalElements_iff_eq h.2,
      List.cons.injEq]

theorem equalMembers_iff_eq : ∀ {ms ns : List (String × Value)}, membersAreFloatFree ms = true →
    (equalMembers ms ns = true ↔ ms = ns)
  | [], [], _ | [], _ :: _, _ | _ :: _, [], _ => by simp [equalMembers]
  | (k, v) :: ms, (l, w) :: ns, h => by
    rw [membersAreFloatFree, Bool.and_eq_true] at h
    rw [equalMembers, Bool.and_eq_true, Bool.and_eq_true, equals_iff_eq h.1,
      equalMembers_iff_eq h.2, beq_iff_eq, List.cons.injEq, Prod.mk.injEq]

end

mutual

/-- Values that are equal kind by kind are loosely equal. -/
theorem looselyEquals_of_equals : ∀ {v w : Value}, v.equals w = true → v.looselyEquals w = true
  | .list vs, w, h => by
    cases w with
    | list ws => exact looselyEqualElements_of_equalElements h
    | _ => cases h
  | .absent, w, h | .null, w, h | .int _, w, h | .float _, w, h | .string _, w, h
  | .boolean _, w, h | .id _, w, h | .enum _, w, h | .object _, w, h | .reference _, w, h => by
    rw [looselyEquals_of_not_list (.inl rfl), h, Bool.or_true]

theorem looselyEqualElements_of_equalElements : ∀ {vs ws : List Value},
    equalElements vs ws = true → looselyEqualElements vs ws = true
  | [], [], _ => rfl
  | [], _ :: _, h | _ :: _, [], h => nomatch h
  | v :: vs, w :: ws, h => by
    rw [equalElements, Bool.and_eq_true] at h
    rw [looselyEqualElements, looselyEquals_of_equals h.1,
      looselyEqualElements_of_equalElements h.2, Bool.and_true]

end

/-! ## Equality up to spelling -/

section Spelling

variable {v w : Value} {s : String}

@[simp] theorem isList_spelled (v : Value) : v.spelled.isList = v.isList := by
  cases v <;> rfl

@[simp] theorem asString?_spelled (v : Value) : v.spelled.asString? = v.asString? := by
  cases v <;> rfl

theorem spelled_of_text (h : v.asString? = some s) : v.spelled = string s := by
  cases v <;> cases h <;> rfl

theorem spelled_of_no_text (hlist : v.isList = false) (h : v.asString? = none) :
    v.spelled = v := by
  cases v with
  | list vs => cases hlist
  | string s | id s | enum s => cases h
  | _ => rfl

theorem isList_of_text (h : v.asString? = some s) : v.isList = false := by
  cases v <;> first | rfl | cases h

theorem asString?_of_equals (h : v.asString? = some s) (hequals : v.equals w = true) :
    w.asString? = some s := by
  cases v <;> cases h <;> cases w <;> first
    | exact congrArg some (beq_iff_eq.1 hequals).symm
    | cases hequals

theorem compare_text_of_no_text (h : v.asString? = some s) (hw : w.asString? = none) :
    v.compare w = none := by
  cases v <;> cases h <;> cases w <;> first | rfl | cases hw

/-- A text is loosely equal to the texts of the same content. -/
theorem looselyEquals_text_iff (h : v.asString? = some s) :
    v.looselyEquals w = true ↔ w.asString? = some s := by
  rw [looselyEquals_of_not_list (.inl (isList_of_text h)), Bool.or_eq_true, beq_iff_eq]
  constructor
  · rintro (hcompare | hequals)
    · cases htext : w.asString? with
      | some t =>
        rw [compare_of_asString h htext, Option.some.injEq, compare_eq_iff_eq] at hcompare
        rw [hcompare]
      | none =>
        rw [compare_text_of_no_text h htext] at hcompare
        cases hcompare
    · exact asString?_of_equals h hequals
  · intro htext
    rw [compare_of_asString h htext]
    exact .inl (congrArg some (compare_eq_iff_eq.2 rfl))

/-- Values that are equal in the order of values are the same up to spelling. -/
theorem eq_of_compare_eq (htext : v.asString? = none) (hv : v.isFloatFree = true)
    (hw : w.isFloatFree = true) (h : v.compare w = some .eq) : v = w := by
  cases v with
  | int a =>
    cases w with
    | int b => simpa [compare, Int64.toInt_inj] using h
    | float y => cases hw
    | _ => cases h
  | boolean a =>
    cases w with
    | boolean b => simpa [compare] using h
    | _ => cases h
  | null =>
    cases w with
    | null => rfl
    | _ => cases h
  | float x => cases hv
  | string s | id s | enum s => cases htext
  | absent | list vs | object ms | reference name => cases w <;> cases h

theorem looselyEquals_iff_eq (hlist : v.isList = false) (htext : v.asString? = none)
    (hv : v.isFloatFree = true) (hw : w.isFloatFree = true) :
    v.looselyEquals w = true ↔ v = w := by
  rw [looselyEquals_of_not_list (.inl hlist), Bool.or_eq_true, equals_iff_eq hv, beq_iff_eq]
  exact or_iff_right_of_imp (eq_of_compare_eq htext hv hw)

/-- A value that is no list is loosely equal to what is spelled like it. -/
theorem looselyEquals_iff_of_not_list (hlist : v.isList = false) (hv : v.isFloatFree = true)
    (hw : w.isFloatFree = true) : v.looselyEquals w = true ↔ v.spelled = w.spelled := by
  cases htext : v.asString? with
  | some s =>
    rw [looselyEquals_text_iff htext, spelled_of_text htext]
    constructor
    · exact fun h => (spelled_of_text h).symm
    · intro h
      rw [← asString?_spelled, ← h]
      rfl
  | none =>
    rw [looselyEquals_iff_eq hlist htext hv hw, spelled_of_no_text hlist htext]
    constructor
    · rintro rfl
      exact (spelled_of_no_text hlist htext).symm
    · intro h
      rw [h, isList_spelled] at hlist
      rw [h, asString?_spelled] at htext
      rw [h, spelled_of_no_text hlist htext]

end Spelling

mutual

/-- Values without doubles are loosely equal if they are spelled alike. -/
theorem looselyEquals_iff_spelled : ∀ {v w : Value}, v.isFloatFree = true →
    w.isFloatFree = true → (v.looselyEquals w = true ↔ v.spelled = w.spelled)
  | .list vs, w, hv, hw => by
    cases w with
    | list ws =>
      rw [spelled, spelled, list.injEq]
      exact looselyEqualElements_iff_spelledAll hv hw
    | _ =>
      rw [looselyEquals_comm, looselyEquals_iff_of_not_list rfl hw hv]
      exact eq_comm
  | .absent, _, hv, hw | .null, _, hv, hw | .int _, _, hv, hw | .float _, _, hv, hw
  | .string _, _, hv, hw | .boolean _, _, hv, hw | .id _, _, hv, hw | .enum _, _, hv, hw
  | .object _, _, hv, hw | .reference _, _, hv, hw => looselyEquals_iff_of_not_list rfl hv hw

theorem looselyEqualElements_iff_spelledAll : ∀ {vs ws : List Value}, areFloatFree vs = true →
    areFloatFree ws = true → (looselyEqualElements vs ws = true ↔ spelledAll vs = spelledAll ws)
  | [], [], _, _ | [], _ :: _, _, _ | _ :: _, [], _, _ => by
    simp [looselyEqualElements, spelledAll]
  | v :: vs, w :: ws, hv, hw => by
    rw [areFloatFree, Bool.and_eq_true] at hv hw
    rw [looselyEqualElements, Bool.and_eq_true, looselyEquals_iff_spelled hv.1 hw.1,
      looselyEqualElements_iff_spelledAll hv.2 hw.2, spelledAll, spelledAll, List.cons.injEq]

end

mutual

/-- How a value is spelled does not matter for what it is loosely equal to, doubles included. -/
theorem looselyEquals_spelled_left : ∀ v x : Value, v.spelled.looselyEquals x = v.looselyEquals x
  | .list vs, x => by
    cases x with
    | list xs => exact looselyEqualElements_spelledAll_left vs xs
    | _ => rfl
  | .id _, _ | .enum _, _ => by
    rw [Bool.eq_iff_iff, looselyEquals_text_iff rfl, looselyEquals_text_iff rfl]
  | .absent, _ | .null, _ | .int _, _ | .float _, _ | .string _, _ | .boolean _, _
  | .object _, _ | .reference _, _ => rfl

theorem looselyEqualElements_spelledAll_left : ∀ vs xs : List Value,
    looselyEqualElements (spelledAll vs) xs = looselyEqualElements vs xs
  | [], _ => rfl
  | _ :: _, [] => rfl
  | v :: vs, x :: xs => by
    rw [spelledAll, looselyEqualElements, looselyEqualElements, looselyEquals_spelled_left v x,
      looselyEqualElements_spelledAll_left vs xs]

end

mutual

theorem leaves_spelled : ∀ v : Value, v.spelled.leaves = v.leaves.map spelled
  | .list vs => leavesOfAll_spelledAll vs
  | .absent | .null | .int _ | .float _ | .string _ | .boolean _ | .id _ | .enum _ | .object _
  | .reference _ => rfl

theorem leavesOfAll_spelledAll : ∀ vs : List Value,
    leavesOfAll (spelledAll vs) = (leavesOfAll vs).map spelled
  | [] => rfl
  | v :: vs => by
    rw [spelledAll, leavesOfAll, leavesOfAll, leaves_spelled v, leavesOfAll_spelledAll vs,
      List.map_append]

end

/-- Two values without doubles are loosely equal. -/
structure Respelled (v w : Value) : Prop where
  left : v.isFloatFree = true
  right : w.isFloatFree = true
  looselyEquals : v.looselyEquals w = true

namespace Respelled

variable {v w : Value}

/-- Values that are loosely equal are loosely equal to the same values. -/
theorem congr_left (h : v.Respelled w) (x : Value) : v.looselyEquals x = w.looselyEquals x := by
  rw [← looselyEquals_spelled_left v, (looselyEquals_iff_spelled h.left h.right).1 h.looselyEquals,
    looselyEquals_spelled_left]

theorem congr_right (h : v.Respelled w) (x : Value) : x.looselyEquals v = x.looselyEquals w := by
  rw [looselyEquals_comm x v, looselyEquals_comm x w, h.congr_left]

theorem any_leaves (h : v.Respelled w) (x : Value) :
    v.leaves.any (·.looselyEquals x) = w.leaves.any (·.looselyEquals x) := by
  have hspelled (v : Value) :
      v.leaves.any (·.looselyEquals x) = v.spelled.leaves.any (·.looselyEquals x) := by
    rw [leaves_spelled, List.any_map]
    simp only [Function.comp_def, looselyEquals_spelled_left]
  rw [hspelled v, (looselyEquals_iff_spelled h.left h.right).1 h.looselyEquals, ← hspelled w]

end Respelled

/-- Loose equality is an equivalence of values without doubles. -/
theorem looselyEquals_equivalence :
    Equivalence fun v w : {v : Value // v.isFloatFree = true} => v.1.looselyEquals w.1 = true where
  refl v := (looselyEquals_iff_spelled v.2 v.2).2 rfl
  symm {v w} h := by rwa [looselyEquals_comm]
  trans {u v w} huv hvw := by
    have h : u.1.Respelled v.1 := ⟨u.2, v.2, huv⟩
    rwa [h.congr_left]

section Compared

variable {v w : Value}

/-- Values that are equal kind by kind compare as equal, if they can be compared. -/
theorem compare_of_equals (h : v.equals w = true) {o : Ordering} (ho : v.compare w = some o) :
    o = .eq := by
  cases v with
  | int a | boolean a | float x | string s | id s | enum s =>
    cases w <;> first | cases h | simp_all [compare, equals, asString?, Double.equals]
  | null =>
    cases w <;> cases ho
    rfl
  | absent | list vs | object ms | reference name => cases w <;> cases ho

/-- Values that can be compared are loosely equal if they compare as equal. -/
theorem looselyEquals_iff_of_compare {o : Ordering} (h : v.compare w = some o) :
    v.looselyEquals w = true ↔ o = .eq := by
  have hlist : v.isList = false := by
    cases v <;> first | rfl | cases h
  rw [looselyEquals_of_not_list (.inl hlist), h, Bool.or_eq_true, beq_iff_eq, Option.some.injEq]
  exact or_iff_left_of_imp fun hequals => compare_of_equals hequals h

end Compared

end Value

/-! ## Candidates -/

/-- Candidates without doubles that are the same but for their order and spelling. -/
structure SameCandidates (vs ws : List Value) : Prop where
  left : ∀ v ∈ vs, ∃ w ∈ ws, v.Respelled w
  right : ∀ w ∈ ws, ∃ v ∈ vs, v.Respelled w

namespace SameCandidates

variable {vs ws : List Value}

theorem any_looselyEquals (h : SameCandidates vs ws) (x : Value) :
    vs.any (·.looselyEquals x) = ws.any (·.looselyEquals x) := by
  rw [Bool.eq_iff_iff, List.any_eq_true, List.any_eq_true]
  constructor
  · rintro ⟨v, hv, hx⟩
    obtain ⟨w, hw, hvw⟩ := h.left v hv
    exact ⟨w, hw, by rwa [← hvw.congr_left]⟩
  · rintro ⟨w, hw, hx⟩
    obtain ⟨v, hv, hvw⟩ := h.right w hw
    exact ⟨v, hv, by rwa [hvw.congr_left]⟩

theorem holds_isIn (h : SameCandidates vs ws) (m : Mapping) (c : Cursor) (t : Term) :
    (Predicate.isIn t vs).holds m c = (Predicate.isIn t ws).holds m c := by
  rw [Predicate.holds, Predicate.holds, funext h.any_looselyEquals]

end SameCandidates

namespace Value.Respelled

/-- An operand is compared alike with constants that are loosely equal, on either side of them. -/
theorem equates {v w : Value} (h : v.Respelled w) (m : Mapping) (c : Cursor) (t : Term) :
    Predicate.equates m c t (.const v) = Predicate.equates m c t (.const w) ∧
      Predicate.equates m c (.const v) t = Predicate.equates m c (.const w) t := by
  cases ht : t.value m c with
  | error f =>
    constructor
    · rw [Predicate.equates, Predicate.equates, ht]
      rfl
    · rw [Predicate.equates, Predicate.equates, ht]
      rfl
  | ok x =>
    constructor
    · rw [Predicate.equates_of_values ht rfl, Predicate.equates_of_values ht rfl]
      simp only [h.congr_right]
    · rw [Predicate.equates_of_values rfl ht, Predicate.equates_of_values rfl ht, h.any_leaves]

end Value.Respelled

/-! ## Cases -/

namespace Sql

/-- Two cases of discriminators tell one type for values that are loosely equal. -/
structure SameCase (x y : Value × String) : Prop where
  value : x.1.Respelled y.1
  type : x.2 = y.2

/-- Cases without doubles that are the same but for their order and spelling. -/
structure SameCases (cases cases' : List (Value × String)) : Prop where
  left : ∀ x ∈ cases, ∃ y ∈ cases', SameCase x y
  right : ∀ y ∈ cases', ∃ x ∈ cases, SameCase x y

/-- No two cases tell different types for values that are loosely equal. -/
def Unambiguous (cases : List (Value × String)) : Prop :=
  ∀ x ∈ cases, ∀ y ∈ cases, x.1.looselyEquals y.1 = true → x.2 = y.2

/-- The type that cases tell for a value. -/
def toldType? (cases : List (Value × String)) (value : Value) : Option String :=
  (cases.find? fun choice => choice.1.looselyEquals value).map (·.2)

section Cases

variable {cases cases' : List (Value × String)} {value : Value}

/-- Cases that are spelled otherwise tell the same type. -/
theorem toldType?_respelled (h : List.Forall₂ SameCase cases cases') :
    toldType? cases value = toldType? cases' value := by
  induction h with
  | nil => rfl
  | @cons x y xs ys hxy _ ih =>
    rw [toldType?, List.find?_cons, hxy.value.congr_left value]
    rw [toldType?, List.find?_cons]
    cases y.1.looselyEquals value with
    | true => exact congrArg some hxy.type
    | false => exact ih

theorem exists_case_of_toldType? {type : String} (h : toldType? cases value = some type) :
    ∃ x ∈ cases, x.1.looselyEquals value = true ∧ x.2 = type := by
  obtain ⟨x, hfind, rfl⟩ := Option.map_eq_some_iff.1 h
  exact ⟨x, List.mem_of_find?_eq_some hfind, by simpa using List.find?_some hfind, rfl⟩

/-- Where cases that are loosely equal tell one type, any of them tells it. -/
theorem toldType?_eq_some_iff (hfree : ∀ x ∈ cases, x.1.isFloatFree = true)
    (hvalue : value.isFloatFree = true) (hcases : Unambiguous cases) {type : String} :
    toldType? cases value = some type ↔
      ∃ x ∈ cases, x.1.looselyEquals value = true ∧ x.2 = type := by
  refine ⟨exists_case_of_toldType?, ?_⟩
  rintro ⟨x, hx, hxv, rfl⟩
  cases htold : toldType? cases value with
  | none =>
    rw [toldType?, Option.map_eq_none_iff, List.find?_eq_none] at htold
    exact absurd hxv (htold x hx)
  | some type =>
    obtain ⟨y, hy, hyv, rfl⟩ := exists_case_of_toldType? htold
    have hsame : y.1.Respelled value := ⟨hfree y hy, hvalue, hyv⟩
    rw [Value.looselyEquals_comm, ← hsame.congr_left] at hxv
    exact congrArg some (hcases y hy x hx hxv)

namespace SameCases

variable (h : SameCases cases cases')

include h

theorem isFloatFree_left : ∀ x ∈ cases, x.1.isFloatFree = true := by
  intro x hx
  obtain ⟨y, -, hxy⟩ := h.left x hx
  exact hxy.value.left

theorem isFloatFree_right : ∀ y ∈ cases', y.1.isFloatFree = true := by
  intro y hy
  obtain ⟨x, -, hxy⟩ := h.right y hy
  exact hxy.value.right

theorem unambiguous (hcases : Unambiguous cases) : Unambiguous cases' := by
  intro y hy y' hy' heq
  obtain ⟨x, hx, hxy⟩ := h.right y hy
  obtain ⟨x', hx', hxy'⟩ := h.right y' hy'
  rw [← hxy.type, ← hxy'.type]
  apply hcases x hx x' hx'
  rwa [hxy.value.congr_left, hxy'.value.congr_right]

/-- Unambiguous cases tell the same type in any order. -/
theorem toldType?_eq (hcases : Unambiguous cases) (hvalue : value.isFloatFree = true) :
    toldType? cases value = toldType? cases' value := by
  apply Option.ext
  intro type
  rw [toldType?_eq_some_iff h.isFloatFree_left hvalue hcases,
    toldType?_eq_some_iff h.isFloatFree_right hvalue (h.unambiguous hcases)]
  constructor
  · rintro ⟨x, hx, hxv, rfl⟩
    obtain ⟨y, hy, hxy⟩ := h.left x hx
    exact ⟨y, hy, by rwa [← hxy.value.congr_left], hxy.type.symm⟩
  · rintro ⟨y, hy, hyv, rfl⟩
    obtain ⟨x, hx, hxy⟩ := h.right y hy
    exact ⟨x, hx, by rwa [hxy.value.congr_left], hxy.type⟩

end SameCases

end Cases

/-- A registry tells what a type is at a path by the value of a column. -/
def TellsBy (r : TableRegistry) (path : List String) (type : String) (column : ColumnRef)
    (cases : List (Value × String)) : Prop :=
  r.fieldMapping? path type TableField.discriminatorName =
    some (.source (.discriminator column cases))

/-- The type of an entity is the one that is told for the column of its discriminator. -/
theorem entityType_of_tellsBy {r : TableRegistry} {c : Cursor} {declared : String}
    {column : ColumnRef} {cases : List (Value × String)}
    (h : TellsBy r c.path declared column cases) (e : Extent) :
    c.entityType r e declared = (do
      let value := (← c.columnCell e column.column).toValue
      match toldType? cases value with
      | some type => pure type
      | none => throw (.interpreter (.unknownDiscriminator value declared c.path))) := by
  unfold Cursor.entityType
  rw [h]
  dsimp only
  congr 1
  funext cell
  unfold toldType?
  cases cases.find? fun choice => choice.1.looselyEquals cell.toValue <;> rfl

/-- An entity is of the same type by discriminators that tell the same for its column. -/
theorem entityType_congr {r r' : TableRegistry} {c c' : Cursor} {e : Extent} {declared : String}
    {column : ColumnRef} {cases cases' : List (Value × String)} (hpath : c'.path = c.path)
    (h : TellsBy r c.path declared column cases) (h' : TellsBy r' c'.path declared column cases')
    (hcell : c'.columnCell e column.column = c.columnCell e column.column)
    (htold : ∀ cell, c.columnCell e column.column = .ok cell →
      toldType? cases cell.toValue = toldType? cases' cell.toValue) :
    c.entityType r e declared = c'.entityType r' e declared := by
  rw [entityType_of_tellsBy h, entityType_of_tellsBy h', hcell, hpath]
  cases hread : c.columnCell e column.column with
  | error f => rfl
  | ok cell => simp only [ok_bind, htold cell hread]

/-- Registries whose discriminators read one column and tell the same types for its value say the
same of an entity. -/
theorem concreteType_congr {r r' : TableRegistry} {path : List String} {type : TypeRef}
    {e : Extent} {column : ColumnRef} {cases cases' : List (Value × String)}
    (hschema : r.schema = r'.schema) (h : TellsBy r path type.underlying column cases)
    (h' : TellsBy r' path type.underlying column cases')
    (htold : ∀ cell, Cursor.columnCell ⟨path, type, .table r e⟩ e column.column = .ok cell →
      toldType? cases cell.toValue = toldType? cases' cell.toValue) :
    (Cursor.mk path type (.table r e)).concreteType =
      (Cursor.mk path type (.table r' e)).concreteType := by
  have hentity : (Cursor.mk path type (.table r e)).entityType r e type.underlying =
      (Cursor.mk path type (.table r' e)).entityType r' e type.underlying :=
    entityType_congr rfl h h' rfl htold
  obtain ⟨schema, types, elaborators⟩ := r
  obtain ⟨schema', types', elaborators'⟩ := r'
  obtain rfl : schema = schema' := hschema
  exact congrArg (fun told => if schema.isAbstract type.underlying then told
    else .ok type.underlying) hentity

end Sql

namespace Value

/-- Loose equality is an equivalence on values without doubles. It is implied by equality kind by
kind and is what the order of values says where they can be compared. Lists of candidates and
constants that are compared with say the same in another order and spelling, and so do the cases of
a discriminator in another spelling, and in another order where no two that are loosely equal tell
different types. -/
theorem loose_equality_is_equivalence :
    (Equivalence fun v w : {v : Value // v.isFloatFree = true} =>
      v.1.looselyEquals w.1 = true) ∧
    (∀ v w : Value, (v == w) = true → v.looselyEquals w = true) ∧
    (∀ (v w : Value) (o : Ordering), v.compare w = some o →
      (v.looselyEquals w = true ↔ o = .eq)) ∧
    (∀ (m : Mapping) (c : Cursor) (t : Term) (vs ws : List Value), SameCandidates vs ws →
      (Predicate.isIn t vs).holds m c = (Predicate.isIn t ws).holds m c) ∧
    (∀ (m : Mapping) (c : Cursor) (t : Term) (v w : Value), v.Respelled w →
      (Predicate.eq t (.const v)).holds m c = (Predicate.eq t (.const w)).holds m c ∧
      (Predicate.eq (.const v) t).holds m c = (Predicate.eq (.const w) t).holds m c ∧
      (Predicate.ne t (.const v)).holds m c = (Predicate.ne t (.const w)).holds m c ∧
      (Predicate.ne (.const v) t).holds m c = (Predicate.ne (.const w) t).holds m c) ∧
    ∀ (r r' : TableRegistry) (path : List String) (type : TypeRef) (e : Extent)
      (column : ColumnRef) (cases cases' : List (Value × String)), r.schema = r'.schema →
      TellsBy r path type.underlying column cases →
      TellsBy r' path type.underlying column cases' →
      (List.Forall₂ SameCase cases cases' ∨
        SameCases cases cases' ∧ Unambiguous cases ∧
          ∀ x, Cursor.columnCell ⟨path, type, .table r e⟩ e column.column ≠ .ok (.real x)) →
        (Cursor.mk path type (.table r e)).concreteType =
          (Cursor.mk path type (.table r' e)).concreteType := by
  refine ⟨looselyEquals_equivalence, fun v w => looselyEquals_of_equals,
    fun v w o => looselyEquals_iff_of_compare, fun m c t vs ws h => h.holds_isIn m c t, ?_, ?_⟩
  · intro m c t v w h
    obtain ⟨hright, hleft⟩ := h.equates m c t
    simp only [Predicate.holds, hright, hleft, and_self]
  · intro r r' path type e column cases cases' hschema h h' hcases
    apply concreteType_congr hschema h h'
    intro cell hcell
    rcases hcases with hrespelled | ⟨hsame, hunambiguous, hreal⟩
    · exact toldType?_respelled hrespelled
    · apply hsame.toldType?_eq hunambiguous
      cases cell with
      | real x => exact absurd hcell (hreal x)
      | _ => rfl

end Value

namespace Kennels

/-- Pets are dogs and puppies. -/
def schema : Schema := .ofTypes [
  .interface ⟨"Pet", [⟨"name", [], .named "String"⟩], []⟩,
  .object ⟨"Dog", [⟨"name", [], .named "String"⟩], ["Pet"]⟩,
  .object ⟨"Puppy", [⟨"name", [], .named "String"⟩], ["Pet"]⟩,
  .object ⟨"Query", [⟨"pets", [], .list (.named "Pet")⟩], []⟩] "Query"

/-- What a pet is is told by its kind. -/
def registry (cases : List (Value × String)) : TableRegistry where
  schema := schema
  types := [.object ⟨"Pet", [.source (.column "name" ⟨"pets", "name"⟩ true false),
    .source (.discriminator ⟨"pets", "kind"⟩ cases)]⟩]
  elaborators := []

def rows (kind : Cell) : RowGroup :=
  ⟨[⟨"t0", "pets", [0], [("name", 0), ("kind", 1)], [], false⟩], 0, [[.text "Rex", kind]]⟩

/-- A pet of a kind. -/
def rex (cases : List (Value × String)) (kind : Cell) : Cursor :=
  ⟨["pets"], .named "Pet", .table (registry cases) (.rows (rows kind))⟩

theorem tellsBy (cases : List (Value × String)) :
    TellsBy (registry cases) ["pets"] "Pet" ⟨"pets", "kind"⟩ cases := rfl

/-- Of two cases that are loosely equal the first one tells the type. -/
theorem order_of_kinds_tells_type :
    Value.Respelled (.string "dog") (.id "dog") ∧
      (rex [(.string "dog", "Dog"), (.id "dog", "Puppy")] (.text "dog")).concreteType =
        .ok "Dog" ∧
      (rex [(.id "dog", "Puppy"), (.string "dog", "Dog")] (.text "dog")).concreteType =
        .ok "Puppy" := by
  refine ⟨⟨rfl, rfl, rfl⟩, rfl, rfl⟩

def kinds : List (Value × String) := [(.string "dog", "Dog"), (.string "pup", "Puppy")]

/-- The kinds in another order and spelling. -/
def otherKinds : List (Value × String) := [(.id "pup", "Puppy"), (.enum "dog", "Dog")]

theorem sameCases : SameCases kinds otherKinds where
  left := by
    intro x hx
    simp only [kinds, List.mem_cons, List.not_mem_nil, or_false] at hx
    rcases hx with rfl | rfl
    · exact ⟨(.enum "dog", "Dog"), by simp [otherKinds], ⟨rfl, rfl, rfl⟩, rfl⟩
    · exact ⟨(.id "pup", "Puppy"), by simp [otherKinds], ⟨rfl, rfl, rfl⟩, rfl⟩
  right := by
    intro y hy
    simp only [otherKinds, List.mem_cons, List.not_mem_nil, or_false] at hy
    rcases hy with rfl | rfl
    · exact ⟨(.string "pup", "Puppy"), by simp [kinds], ⟨rfl, rfl, rfl⟩, rfl⟩
    · exact ⟨(.string "dog", "Dog"), by simp [kinds], ⟨rfl, rfl, rfl⟩, rfl⟩

theorem unambiguous : Unambiguous kinds := by
  unfold Unambiguous
  decide

theorem sameCandidates :
    SameCandidates [.string "new", .id "port"] [.enum "port", .string "new"] where
  left := by
    simp only [List.forall_mem_cons]
    exact ⟨⟨.string "new", by simp, rfl, rfl, rfl⟩, ⟨.enum "port", by simp, rfl, rfl, rfl⟩, nofun⟩
  right := by
    simp only [List.forall_mem_cons]
    exact ⟨⟨.id "port", by simp, rfl, rfl, rfl⟩, ⟨.string "new", by simp, rfl, rfl, rfl⟩, nofun⟩

/-- The kinds of pets tell the same in either order, and a haven has a tag that is listed in either
order. -/
theorem kinds_tell_the_same :
    SameCases kinds otherKinds ∧ Unambiguous kinds ∧
      (rex otherKinds (.text "pup")).concreteType = .ok "Puppy" ∧
      (Predicate.isIn (.path ["tags"]) [.enum "port", .string "new"]).holds
        (.documents Havens.registry) Havens.hoorn = .ok true := by
  obtain ⟨-, -, -, hisIn, -, htold⟩ := Value.loose_equality_is_equivalence
  refine ⟨sameCases, unambiguous, ?_, ?_⟩
  · have hsame := htold (registry kinds) (registry otherKinds) ["pets"] (.named "Pet")
      (.rows (rows (.text "pup"))) ⟨"pets", "kind"⟩ kinds otherKinds rfl (tellsBy _) (tellsBy _)
      (.inr ⟨sameCases, unambiguous, nofun⟩)
    exact hsame.symm
  · exact (hisIn _ _ _ _ _ sameCandidates).symm

end Kennels

end MappedQuery
