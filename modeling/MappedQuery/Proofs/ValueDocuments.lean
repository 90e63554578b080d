import MappedQuery.Proofs.ObjectMembers
import MappedQuery.Value.Document

/-!
# Values as documents

A document is read as a value and a value is written as a document. Both ways lose something: a
document does not tell the text-like kinds apart and says nothing of what is absent, and a value has
whole numbers of sixty-four bits only. Reading and writing undo each other exactly where nothing is
lost (`Json.IsExact`, `Value.IsPlain`).
-/
namespace MappedQuery

/-- A document that a value keeps as it is: its whole numbers have sixty-four bits, its doubles are
finite, and no object has a key twice. -/
inductive Json.IsExact : Json → Prop where
  | null : IsExact .null
  | bool (b : Bool) : IsExact (.bool b)
  | integer {n : Int} (hmin : Int64.minValue.toInt ≤ n) (hmax : n ≤ Int64.maxValue.toInt) :
    IsExact (.integer n)
  | double {x : Double} (hx : x.isFinite = true) : IsExact (.double x)
  | string (s : String) : IsExact (.string s)
  | array {elements : List Json} (helements : ∀ e ∈ elements, IsExact e) :
    IsExact (.array elements)
  | object {members : List (String × Json)} (hkeys : (members.map Prod.fst).Nodup)
    (hmembers : ∀ m ∈ members, IsExact m.2) : IsExact (.object members)

/-- A value of the kinds that documents have, with finite doubles and no key twice in an object. -/
inductive Value.IsPlain : Value → Prop where
  | null : IsPlain .null
  | int (n : Int64) : IsPlain (.int n)
  | float {x : Double} (hx : x.isFinite = true) : IsPlain (.float x)
  | string (s : String) : IsPlain (.string s)
  | boolean (b : Bool) : IsPlain (.boolean b)
  | list {values : List Value} (hvalues : ∀ v ∈ values, IsPlain v) : IsPlain (.list values)
  | object {members : List (String × Value)} (hkeys : (members.map Prod.fst).Nodup)
    (hmembers : ∀ m ∈ members, IsPlain m.2) : IsPlain (.object members)

/-- Objects that are put together from members with the keys of an object are that object exactly
if the members are, and no key is there twice. -/
theorem Json.ofMembers_eq_iff {ms ns : List (String × Json)}
    (hkeys : ms.map Prod.fst = ns.map Prod.fst) :
    ofMembers ms = .object ns ↔ (ns.map Prod.fst).Nodup ∧ ms = ns := by
  constructor
  · intro h
    have hputs : putAll [] ms = ns := Json.object.inj h
    have hnil : (([] : List (String × Json)).map Prod.fst).Nodup := List.nodup_nil
    have hns : (ns.map Prod.fst).Nodup := hputs ▸ nodup_keys_putAll hnil ms
    rw [ofMembers_of_nodup (hkeys ▸ hns)] at h
    exact ⟨hns, Json.object.inj h⟩
  · rintro ⟨hns, rfl⟩
    exact ofMembers_of_nodup hns

namespace Value

/-! ## Elements and members -/

theorem ofJsonMembers_eq (ms : List (String × Json)) :
    ofJsonMembers ms = ms.map fun m => (m.1, ofJson m.2) := by
  induction ms with
  | nil => rfl
  | cons m ms ih => rw [ofJsonMembers, ih, List.map_cons]

theorem toJsonElements_eq (vs : List Value) : toJsonElements vs = vs.map toJson := by
  induction vs with
  | nil => rfl
  | cons v vs ih => rw [toJsonElements, ih, List.map_cons]

/-- The members of an input object that are not absent. -/
def presentMembers (ms : List (String × Value)) : List (String × Value) :=
  ms.filter fun m => !m.2.isAbsent

theorem toJsonMembers_eq (ms : List (String × Value)) :
    toJsonMembers ms = (presentMembers ms).map fun m => (m.1, m.2.toJson) := by
  induction ms with
  | nil => rfl
  | cons m ms ih =>
    rw [toJsonMembers, presentMembers, List.filter_cons, ih]
    cases m.2.isAbsent <;> rfl

theorem length_toJsonMembers_le (ms : List (String × Value)) :
    (toJsonMembers ms).length ≤ ms.length := by
  rw [toJsonMembers_eq, List.length_map]
  exact List.length_filter_le ..

theorem nodup_keys_toJsonMembers {ms : List (String × Value)} (h : (ms.map Prod.fst).Nodup) :
    ((toJsonMembers ms).map Prod.fst).Nodup := by
  rw [toJsonMembers_eq, List.map_map]
  exact h.sublist (List.filter_sublist.map Prod.fst)

theorem keys_ofJsonMembers (ms : List (String × Json)) :
    (ofJsonMembers ms).map Prod.fst = ms.map Prod.fst := by
  rw [ofJsonMembers_eq, List.map_map]
  rfl

/-- The members of an input object come back as they were if none of them has the key of another
and each comes back. -/
theorem ofJson_ofMembers_iff (ms : List (String × Value)) :
    ofJson (Json.ofMembers (toJsonMembers ms)) = .object ms ↔
      (ms.map Prod.fst).Nodup ∧ ofJsonMembers (toJsonMembers ms) = ms := by
  constructor
  · intro h
    have hputs : ofJsonMembers (Json.putAll [] (toJsonMembers ms)) = ms := Value.object.inj h
    have hnil : (([] : List (String × Json)).map Prod.fst).Nodup := List.nodup_nil
    have hms : (ms.map Prod.fst).Nodup := by
      rw [← hputs, keys_ofJsonMembers]
      exact Json.nodup_keys_putAll hnil _
    rw [Json.ofMembers_of_nodup (nodup_keys_toJsonMembers hms)] at h
    exact ⟨hms, Value.object.inj h⟩
  · rintro ⟨hms, h⟩
    rw [Json.ofMembers_of_nodup (nodup_keys_toJsonMembers hms), ofJson, h]

theorem isAbsent_ofJson (j : Json) : (ofJson j).isAbsent = false := by
  cases j with
  | integer n =>
    rw [ofJson, ofWhole]
    cases toInt64? n <;> rfl
  | _ => rfl

theorem toJsonMembers_ofJson (ms : List (String × Json)) :
    toJsonMembers (ofJsonMembers ms) = ms.map fun m => (m.1, (ofJson m.2).toJson) := by
  rw [toJsonMembers_eq, ofJsonMembers_eq, presentMembers, List.filter_eq_self.2, List.map_map]
  · rfl
  · intro m hm
    obtain ⟨n, -, rfl⟩ := List.mem_map.1 hm
    rw [isAbsent_ofJson]
    rfl

/-! ## Documents read and written -/

theorem toJson_ofWhole_iff (n : Int) : (ofWhole n).toJson = .integer n ↔
    Int64.minValue.toInt ≤ n ∧ n ≤ Int64.maxValue.toInt := by
  rw [ofWhole]
  cases hn : toInt64? n with
  | none =>
    have hfar : ¬ (Int64.minValue.toInt ≤ n ∧ n ≤ Int64.maxValue.toInt) := fun h => by
      rw [toInt64?, if_pos h] at hn
      cases hn
    refine iff_of_false (fun h => ?_) hfar
    dsimp only at h
    rw [toJson, Json.ofDouble] at h
    split at h <;> cases h
  | some m =>
    have hm := toInt_of_toInt64? hn
    subst hm
    exact iff_of_true rfl ⟨m.minValue_le_toInt, m.toInt_le⟩

theorem ofDouble_eq_double_iff (x : Double) : Json.ofDouble x = .double x ↔ x.isFinite = true := by
  rw [Json.ofDouble]
  cases x.isFinite <;> simp

mutual

theorem toJson_ofJson_iff : ∀ j : Json, (ofJson j).toJson = j ↔ j.IsExact
  | .null => iff_of_true rfl .null
  | .bool b => iff_of_true rfl (.bool b)
  | .integer n => by
    refine (toJson_ofWhole_iff n).trans ⟨fun h => .integer h.1 h.2, fun h => ?_⟩
    cases h with
    | integer hmin hmax => exact ⟨hmin, hmax⟩
  | .double x => by
    refine (ofDouble_eq_double_iff x).trans ⟨.double, fun h => ?_⟩
    cases h with
    | double hx => exact hx
  | .string s => iff_of_true rfl (.string s)
  | .array es => by
    rw [ofJson, toJson, Json.array.injEq, toJson_ofJsonElements_iff es]
    refine ⟨.array, fun h => ?_⟩
    cases h with
    | array helements => exact helements
  | .object ms => by
    have hkeys : (toJsonMembers (ofJsonMembers ms)).map Prod.fst = ms.map Prod.fst := by
      rw [toJsonMembers_ofJson, List.map_map]
      rfl
    rw [ofJson, toJson, Json.ofMembers_eq_iff hkeys, toJson_ofJsonMembers_iff ms]
    refine ⟨fun h => .object h.1 h.2, fun h => ?_⟩
    cases h with
    | object hnodup hmembers => exact ⟨hnodup, hmembers⟩

theorem toJson_ofJsonElements_iff : ∀ es : List Json,
    toJsonElements (ofJsonElements es) = es ↔ ∀ e ∈ es, e.IsExact
  | [] => by simp [ofJsonElements, toJsonElements]
  | e :: es => by
    rw [ofJsonElements, toJsonElements, List.cons.injEq, toJson_ofJson_iff e,
      toJson_ofJsonElements_iff es, List.forall_mem_cons]

theorem toJson_ofJsonMembers_iff : ∀ ms : List (String × Json),
    toJsonMembers (ofJsonMembers ms) = ms ↔ ∀ m ∈ ms, m.2.IsExact
  | [] => by simp [ofJsonMembers, toJsonMembers]
  | (k, j) :: ms => by
    rw [ofJsonMembers, toJsonMembers, isAbsent_ofJson, if_neg Bool.false_ne_true, List.cons.injEq,
      Prod.mk.injEq, toJson_ofJson_iff j, toJson_ofJsonMembers_iff ms, List.forall_mem_cons]
    simp

end

/-! ## Values written and read -/

mutual

theorem ofJson_toJson_iff : ∀ v : Value, ofJson v.toJson = v ↔ v.IsPlain
  | .absent => iff_of_false nofun nofun
  | .null => iff_of_true rfl .null
  | .int n => by
    refine iff_of_true ?_ (.int n)
    rw [toJson, ofJson, ofWhole, toInt64?_toInt]
  | .float x => by
    rw [toJson, Json.ofDouble]
    cases hx : x.isFinite with
    | false =>
      refine iff_of_false nofun fun h => ?_
      cases h with
      | float hfinite => simp [hx] at hfinite
    | true => exact iff_of_true rfl (.float hx)
  | .string s => iff_of_true rfl (.string s)
  | .boolean b => iff_of_true rfl (.boolean b)
  | .id s => iff_of_false nofun nofun
  | .enum name => iff_of_false nofun nofun
  | .reference name => iff_of_false nofun nofun
  | .list vs => by
    rw [toJson, ofJson, Value.list.injEq, ofJson_toJsonElements_iff vs]
    refine ⟨.list, fun h => ?_⟩
    cases h with
    | list hvalues => exact hvalues
  | .object ms => by
    rw [toJson, ofJson_ofMembers_iff, ofJson_toJsonMembers_iff ms]
    refine ⟨fun h => .object h.1 h.2, fun h => ?_⟩
    cases h with
    | object hkeys hmembers => exact ⟨hkeys, hmembers⟩

theorem ofJson_toJsonElements_iff : ∀ vs : List Value,
    ofJsonElements (toJsonElements vs) = vs ↔ ∀ v ∈ vs, v.IsPlain
  | [] => by simp [ofJsonElements, toJsonElements]
  | v :: vs => by
    rw [toJsonElements, ofJsonElements, List.cons.injEq, ofJson_toJson_iff v,
      ofJson_toJsonElements_iff vs, List.forall_mem_cons]

theorem ofJson_toJsonMembers_iff : ∀ ms : List (String × Value),
    ofJsonMembers (toJsonMembers ms) = ms ↔ ∀ m ∈ ms, m.2.IsPlain
  | [] => by simp [ofJsonMembers, toJsonMembers]
  | (k, v) :: ms => by
    rw [toJsonMembers, List.forall_mem_cons]
    cases hv : v.isAbsent with
    | true =>
      rw [if_pos rfl, isAbsent_iff.1 hv]
      refine iff_of_false (fun h => ?_) fun h => nomatch h.1
      have hlength := congrArg List.length h
      rw [ofJsonMembers_eq, List.length_map, List.length_cons] at hlength
      have hle := length_toJsonMembers_le ms
      omega
    | false =>
      rw [if_neg Bool.false_ne_true, ofJsonMembers, List.cons.injEq, Prod.mk.injEq,
        ofJson_toJson_iff v, ofJson_toJsonMembers_iff ms]
      simp

end

/-- Writing undoes reading exactly for the documents that a value keeps as they are, members in
order, and reading undoes writing exactly for the values of the kinds that documents have. -/
theorem documents_are_plain_values :
    (∀ j : Json, (ofJson j).toJson = j ↔ j.IsExact) ∧
      ∀ v : Value, ofJson v.toJson = v ↔ v.IsPlain :=
  ⟨toJson_ofJson_iff, ofJson_toJson_iff⟩

end Value

/-! ## Places -/

/-- A step into an array or an object. -/
inductive Json.Step where
  | element (index : Nat)
  | member (key : String)
deriving DecidableEq, Repr

/-- The steps from a document, or a value, to what stands in it. -/
abbrev Json.Place : Type := List Json.Step

namespace Json

/-- What stands at a place in a document. -/
def at? : Place → Json → Option Json
  | [], j => some j
  | .element i :: rest, .array es => es[i]?.bind (at? rest)
  | .member key :: rest, .object ms => ((object ms).get? key).bind (at? rest)
  | _ :: _, _ => none

end Json

namespace Value

/-- The last member of a name that is not absent. -/
def lastPresent? (key : String) (ms : List (String × Value)) : Option Value :=
  (((presentMembers ms).filter (·.1 = key)).getLast?).map (·.2)

/-- What stands at a place in a value. An absent member does not stand anywhere, and of several
members of a name the last one stands there. -/
def at? : Json.Place → Value → Option Value
  | [], v => some v
  | .element i :: rest, .list vs => vs[i]?.bind (at? rest)
  | .member key :: rest, .object ms => (lastPresent? key ms).bind (at? rest)
  | _ :: _, _ => none

@[simp] theorem at?_nil (v : Value) : v.at? [] = some v := by cases v <;> rfl

theorem get?_toJson_object (key : String) (ms : List (String × Value)) :
    (object ms).toJson.get? key = (lastPresent? key ms).map toJson := by
  rw [toJson, Json.get?_ofMembers, toJsonMembers_eq, Json.lastMember?, List.filter_map,
    List.getLast?_map, Option.map_map, lastPresent?, Option.map_map]
  rfl

/-- What stands at a place in the document of a value is the document of what stands there in the
value. -/
theorem at?_toJson (place : Json.Place) (v : Value) :
    v.toJson.at? place = (v.at? place).map toJson := by
  induction place generalizing v with
  | nil => cases v <;> rfl
  | cons step rest ih =>
    have hfloat (x : Double) : (float x).toJson.at? (step :: rest) = none := by
      rw [toJson, Json.ofDouble]
      split <;> cases step <;> rfl
    cases step with
    | element i =>
      cases v with
      | list vs =>
        rw [toJson, Json.at?, at?, toJsonElements_eq, List.getElem?_map]
        cases vs[i]? with
        | none => rfl
        | some w => exact ih w
      | float x => exact hfloat x
      | _ => rfl
    | member key =>
      cases v with
      | object ms =>
        have hget := get?_toJson_object key ms
        rw [at?]
        change ((object ms).toJson.get? key).bind (Json.at? rest) = _
        rw [hget]
        cases lastPresent? key ms with
        | none => rfl
        | some w => exact ih w
      | float x => exact hfloat x
      | _ => rfl

theorem toJson_eq_null_iff (v : Value) : v.toJson = .null ↔
    v = .null ∨ v = .absent ∨ ∃ x, v = .float x ∧ x.isFinite = false := by
  cases v with
  | float x =>
    rw [toJson, Json.ofDouble]
    cases hx : x.isFinite <;> simp [hx]
  | object ms => simp [toJson, Json.ofMembers]
  | _ => simp [toJson]

theorem at?_append (above below : Json.Place) (v : Value) :
    v.at? (above ++ below) = (v.at? above).bind (at? below) := by
  induction above generalizing v with
  | nil => simp
  | cons step rest ih =>
    cases step with
    | element i =>
      cases v with
      | list vs =>
        rw [List.cons_append, at?, at?]
        cases vs[i]? with
        | none => rfl
        | some w => exact ih w
      | _ => rfl
    | member key =>
      cases v with
      | object ms =>
        rw [List.cons_append, at?, at?]
        cases lastPresent? key ms with
        | none => rfl
        | some w => exact ih w
      | _ => rfl

theorem lastPresent?_ne_absent {key : String} {ms : List (String × Value)} {v : Value}
    (h : lastPresent? key ms = some v) : v.isAbsent = false := by
  obtain ⟨m, hm, rfl⟩ := Option.map_eq_some_iff.1 h
  have hmem := (List.mem_filter.1 (List.mem_of_getLast? hm)).1
  simpa using (List.mem_filter.1 hmem).2

theorem lastPresent?_eq_none_iff {key : String} {ms : List (String × Value)} :
    lastPresent? key ms = none ↔ ∀ m ∈ ms, m.1 = key → m.2.isAbsent = true := by
  simp [lastPresent?, presentMembers]

mutual

/-- Whether no double is in a value. -/
def isFloatFree : Value → Bool
  | float _ => false
  | list vs => areFloatFree vs
  | object ms => membersAreFloatFree ms
  | _ => true

def areFloatFree : List Value → Bool
  | [] => true
  | v :: rest => v.isFloatFree && areFloatFree rest

def membersAreFloatFree : List (String × Value) → Bool
  | [] => true
  | (_, v) :: rest => v.isFloatFree && membersAreFloatFree rest

end

theorem areFloatFree_iff {vs : List Value} :
    areFloatFree vs = true ↔ ∀ v ∈ vs, v.isFloatFree = true := by
  induction vs with
  | nil => simp [areFloatFree]
  | cons v vs ih => rw [areFloatFree, Bool.and_eq_true, ih, List.forall_mem_cons]

theorem membersAreFloatFree_iff {ms : List (String × Value)} :
    membersAreFloatFree ms = true ↔ ∀ m ∈ ms, m.2.isFloatFree = true := by
  induction ms with
  | nil => simp [membersAreFloatFree]
  | cons m ms ih => rw [membersAreFloatFree, Bool.and_eq_true, ih, List.forall_mem_cons]

theorem isFloatFree_at? {place : Json.Place} {v w : Value} (hv : v.isFloatFree = true)
    (h : v.at? place = some w) : w.isFloatFree = true := by
  induction place generalizing v with
  | nil =>
    rw [at?_nil] at h
    exact Option.some.inj h ▸ hv
  | cons step rest ih =>
    cases step with
    | element i =>
      cases v with
      | list vs =>
        obtain ⟨u, hu, h⟩ := Option.bind_eq_some_iff.1 h
        exact ih (areFloatFree_iff.1 hv u (List.mem_of_getElem? hu)) h
      | _ => cases h
    | member key =>
      cases v with
      | object ms =>
        obtain ⟨u, hu, h⟩ := Option.bind_eq_some_iff.1 h
        obtain ⟨m, hm, rfl⟩ := Option.map_eq_some_iff.1 hu
        have hmem := (List.mem_filter.1 (List.mem_of_getLast? hm)).1
        exact ih (membersAreFloatFree_iff.1 hv m (List.mem_filter.1 hmem).1) h
      | _ => cases h

/-- An element of a list in a value is absent. -/
def AbsentElement (v : Value) (place : Json.Place) : Prop :=
  ∃ above i vs, place = above ++ [.element i] ∧ v.at? above = some (.list vs) ∧
    vs[i]? = some .absent

/-- Nothing but elements of lists is absent in a value that is there. -/
theorem at?_eq_absent_iff {place : Json.Place} {v : Value} (hv : v ≠ .absent) :
    v.at? place = some .absent ↔ v.AbsentElement place := by
  constructor
  · intro h
    rcases List.eq_nil_or_concat place with rfl | ⟨above, step, rfl⟩
    · rw [at?_nil] at h
      exact absurd (Option.some.inj h) hv
    · rw [List.concat_eq_append] at h ⊢
      rw [at?_append] at h
      obtain ⟨u, hu, h⟩ := Option.bind_eq_some_iff.1 h
      cases step with
      | element i =>
        cases u with
        | list vs =>
          obtain ⟨w, hw, h⟩ := Option.bind_eq_some_iff.1 h
          rw [at?_nil] at h
          exact ⟨above, i, vs, rfl, hu, Option.some.inj h ▸ hw⟩
        | _ => cases h
      | member key =>
        cases u with
        | object ms =>
          obtain ⟨w, hw, h⟩ := Option.bind_eq_some_iff.1 h
          rw [at?_nil] at h
          cases (lastPresent?_ne_absent hw).symm.trans (isAbsent_iff.2 (Option.some.inj h))
        | _ => cases h
  · rintro ⟨above, i, vs, rfl, habove, hi⟩
    rw [at?_append, habove]
    change vs[i]?.bind (at? []) = _
    rw [hi]
    rfl

/-- A document has null where its value has null and where an element of a list is absent. -/
theorem at?_toJson_eq_null_iff {v : Value} (hfloat : v.isFloatFree = true) (hv : v ≠ .absent)
    (place : Json.Place) : v.toJson.at? place = some .null ↔
      v.at? place = some .null ∨ v.AbsentElement place := by
  rw [← at?_eq_absent_iff hv, at?_toJson, Option.map_eq_some_iff]
  constructor
  · rintro ⟨w, hw, hnull⟩
    rcases (toJson_eq_null_iff w).1 hnull with rfl | rfl | ⟨x, rfl, -⟩
    · exact .inl hw
    · exact .inr hw
    · cases isFloatFree_at? hfloat hw
  · rintro (h | h)
    · exact ⟨_, h, rfl⟩
    · exact ⟨_, h, rfl⟩

/-- Without doubles a document has null exactly where its value has, and where an element of a list
is absent; so the two agree exactly if no list in the value has an absent element. An object has the
members that are not absent, at any depth. -/
theorem nulls_are_written_for {v : Value} (hfloat : v.isFloatFree = true) (hv : v ≠ .absent) :
    (∀ place, v.toJson.at? place = some .null ↔
      v.at? place = some .null ∨ v.AbsentElement place) ∧
    ((∀ place, v.toJson.at? place = some .null ↔ v.at? place = some .null) ↔
      ∀ place vs, v.at? place = some (.list vs) → .absent ∉ vs) ∧
    ∀ place ms key, v.at? place = some (.object ms) →
      (v.toJson.at? (place ++ [.member key]) = none ↔ ∀ m ∈ ms, m.1 = key → m.2 = .absent) := by
  have hnull := at?_toJson_eq_null_iff hfloat hv
  refine ⟨hnull, ⟨fun h place vs hvs hmem => ?_, fun h place => ?_⟩, fun place ms key hms => ?_⟩
  · obtain ⟨i, hi⟩ := List.mem_iff_getElem?.1 hmem
    have helement : v.AbsentElement (place ++ [.element i]) := ⟨place, i, vs, rfl, hvs, hi⟩
    have hsame := (h _).1 ((hnull _).2 (.inr helement))
    rw [(at?_eq_absent_iff hv).2 helement] at hsame
    cases hsame
  · rw [hnull]
    refine or_iff_left ?_
    rintro ⟨above, i, vs, -, hvs, hi⟩
    exact h above vs hvs (List.mem_of_getElem? hi)
  · rw [at?_toJson, at?_append, hms, Option.map_eq_none_iff]
    change (lastPresent? key ms).bind (at? []) = none ↔ _
    have hbind : (lastPresent? key ms).bind (at? []) = lastPresent? key ms := by
      cases lastPresent? key ms <;> simp
    rw [hbind, lastPresent?_eq_none_iff]
    exact forall₂_congr fun m _ => imp_congr_right fun _ => isAbsent_iff

end Value

namespace Filters

/-- A filter without a bound, of which one name is not supplied. -/
def sparse : Value := .object [("from", .absent), ("to", .null),
  ("names", .list [.string "Ems", .absent])]

/-- A missing member is left out and a missing element is null. -/
theorem sparse_is_written :
    sparse.isFloatFree = true ∧ sparse ≠ .absent ∧
      sparse.toJson.at? [.member "from"] = none ∧
      sparse.toJson.at? [.member "names", .element 1] = some .null := by
  have hfloat : sparse.isFloatFree = true := rfl
  have hsparse : sparse ≠ .absent := nofun
  have hwritten := Value.nulls_are_written_for hfloat hsparse
  refine ⟨hfloat, hsparse, ?_, ?_⟩
  · refine (hwritten.2.2 [] _ "from" rfl).2 ?_
    simp
  · exact (hwritten.1 _).2 (.inr ⟨[.member "names"], 1, _, rfl, rfl, rfl⟩)

/-- The name that is not supplied becomes null. -/
theorem missing_name_is_null :
    sparse.at? [.member "names", .element 1] = some .absent ∧
      sparse.toJson.at? [.member "names", .element 1] = some .null :=
  ⟨rfl, rfl⟩

end Filters

end MappedQuery
