import MappedQuery.Cursor.Basic
import MappedQuery.Proofs.Ancestry

/-!
# Documents that conform to a type

A document conforms to a type if it is an array at lists, null only where that is allowed, a leaf
of its kind at leaf types, and at all other types an object that names an object type allowed
there and whose members conform to the fields of that type. What is read of a conforming leaf is
written as a conforming leaf.
-/
namespace MappedQuery

namespace Double

theorem magnitude_ofMagnitude (negative : Bool) {m : Nat} (h : m < signBit) :
    (ofMagnitude negative m).magnitude = m := by
  have hsign : signBit = 2 ^ 63 := rfl
  unfold ofMagnitude magnitude
  rw [UInt64.toNat_ofNat', hsign]
  rw [hsign] at h
  split <;> omega

/-- Rounding to the nearest adds at most one. -/
theorem roundDiv_le (num den : Nat) : roundDiv num den ≤ num / den + 1 := by
  unfold roundDiv
  dsimp only
  split <;> omega

/-- A whole number of sixty-four bits is rounded to a magnitude far below the infinities. -/
theorem roundRatio_one_lt {num : Nat} (h : num < UInt64.size) :
    roundRatio num 1 < infinityMagnitude := by
  unfold roundRatio
  split
  · decide
  · rename_i hnum
    have hlog : num.log2 < 64 := (Nat.log2_lt hnum).2 h
    have hself : num < 2 ^ (num.log2 + 1) := Nat.lt_log2_self
    have hone : Nat.log2 1 = 0 := by decide
    have hscaled (e : Int) (hlow : (num.log2 : Int) - 53 ≤ e) :
        (if e < 0 then (num <<< (-e).toNat, 1) else (num, 1 <<< e.toNat)).1 /
          (if e < 0 then (num <<< (-e).toNat, 1) else (num, 1 <<< e.toNat)).2 < 2 ^ 54 := by
      split
      · rw [Nat.shiftLeft_eq, Nat.div_one]
        calc num * 2 ^ (-e).toNat < 2 ^ (num.log2 + 1) * 2 ^ (-e).toNat :=
              Nat.mul_lt_mul_of_pos_right hself (Nat.two_pow_pos _)
          _ = 2 ^ (num.log2 + 1 + (-e).toNat) := (Nat.pow_add ..).symm
          _ ≤ 2 ^ 54 := Nat.pow_le_pow_right (by decide) (by omega)
      · rw [Nat.one_shiftLeft, Nat.div_lt_iff_lt_mul (Nat.two_pow_pos _), ← Nat.pow_add]
        exact Nat.lt_of_lt_of_le hself (Nat.pow_le_pow_right (by decide) (by omega))
    dsimp only
    rw [hone]
    generalize hexp : (if 2 * exponentBit ≤ _ then _ else _ : Int) = e
    have he : (num.log2 : Int) - 53 ≤ e ∧ e ≤ 11 := by
      rw [← hexp]
      split <;> omega
    have hround := Nat.le_trans (roundDiv_le _ _) (Nat.succ_le_of_lt (hscaled e he.1))
    have htop : (e + 1074).toNat * exponentBit ≤ 1085 * exponentBit :=
      Nat.mul_le_mul_right _ (by omega)
    exact Nat.lt_of_le_of_lt (Nat.le_trans (Nat.min_le_left _ _) (Nat.add_le_add htop hround))
      (by decide)

theorem isFinite_ofInt {n : Int} (h : n.natAbs < UInt64.size) : (ofInt n).isFinite = true := by
  have hlt := roundRatio_one_lt h
  unfold ofInt ofRatio isFinite
  rw [magnitude_ofMagnitude _ (Nat.lt_trans hlt (by decide))]
  exact decide_eq_true hlt

theorem isFinite_ofInt64 (n : Int64) : (ofInt n.toInt).isFinite = true := by
  have hmin := n.minValue_le_toInt
  have hmax := n.toInt_le
  rw [Int64.toInt_minValue] at hmin
  rw [Int64.toInt_maxValue] at hmax
  have hsize : UInt64.size = 18446744073709551616 := rfl
  exact isFinite_ofInt (by omega)

end Double

/-- Whether a document is one of a scalar type. Whole numbers have sixty-four bits, with or
without a sign; scalars that are not built in take texts, truth values and numbers alike. -/
def Json.fitsScalar (type : String) : Json → Bool
  | .string _ => ! ["Int", "Float", "Boolean"].contains type
  | .bool _ => ! ["Int", "Float", "String", "ID"].contains type
  | .integer n => ! ["String", "Boolean"].contains type &&
    ((toInt64? n).isSome || ! ["Int", "ID"].contains type && n.natAbs < UInt64.size)
  | .double x => ! ["Int", "String", "Boolean", "ID"].contains type && x.isFinite
  | _ => false

theorem Value.toJson_float {x : Double} (h : x.isFinite = true) :
    (float x).toJson = .double x := by
  rw [Value.toJson, Json.ofDouble, if_pos h]

namespace Schema

def IsObject (s : Schema) (type : String) : Prop := ∃ o, s.find? type = some (.object o)

/-- Objects of an object type may stand at positions of a type. -/
structure Allows (s : Schema) (type object : String) : Prop where
  isObject : s.IsObject object
  isSubtype : s.isSubtype object type = true

/-- Whether a document is a leaf of a type: one of the values of an enumeration, or a scalar. -/
def leafFits (s : Schema) (type : String) (json : Json) : Bool :=
  match s.find? type, json with
  | some (.enum _ values), .string v => values.contains v
  | some (.scalar _), json => json.fitsScalar type
  | _, _ => false

/-- A document conforms to a type. Objects carry the name of an object type, and a field without
a member is null. -/
inductive Conforms (s : Schema) : TypeRef → Json → Prop
  | null {inner : TypeRef} : Conforms s (.nullable inner) .null
  | present {inner : TypeRef} {json : Json} (h : Conforms s inner json) :
    Conforms s (.nullable inner) json
  | list {item : TypeRef} {elements : List Json} (h : ∀ e ∈ elements, Conforms s item e) :
    Conforms s (.list item) (.array elements)
  | leaf {type : String} {json : Json} (h : s.leafFits type json = true) :
    Conforms s (.named type) json
  | object {type object : String} {members : List (String × Json)} (hallows : s.Allows type object)
    (hname : (Json.object members).get? Cursor.typenameKey = some (.string object))
    (h : ∀ name f, s.field? object name = some f →
      Conforms s f.type (((Json.object members).get? name).getD .null)) :
    Conforms s (.named type) (.object members)

theorem leafFits_iff {s : Schema} {type : String} {json : Json} : s.leafFits type json = true ↔
    (∃ name values v, s.find? type = some (.enum name values) ∧ json = .string v ∧
      values.contains v = true) ∨
    ∃ name, s.find? type = some (.scalar name) ∧ json.fitsScalar type = true := by
  unfold leafFits
  constructor
  · intro h
    split at h
    · exact .inl ⟨_, _, _, ‹_›, rfl, h⟩
    · exact .inr ⟨_, ‹_›, h⟩
    · cases h
  · rintro (⟨name, values, v, hfind, rfl, hv⟩ | ⟨name, hfind, h⟩)
    · rw [hfind]
      exact hv
    · rw [hfind]
      exact h

theorem isLeaf_of_leafFits {s : Schema} {type : String} {json : Json}
    (h : s.leafFits type json = true) : s.isLeaf type = true := by
  rcases leafFits_iff.1 h with ⟨name, values, v, hfind, -⟩ | ⟨name, hfind, -⟩ <;>
    rw [isLeaf, hfind] <;> rfl

end Schema

namespace Registry

/-- Whatever leaf of a type an encoder is given, it writes a leaf of the type. -/
def EncodersFit (r : DocumentRegistry) : Prop :=
  ∀ type encode, r.encoder? type = some encode → ∀ json, r.schema.leafFits type json = true →
    ∃ doc, encode (Cursor.typedLeaf r.schema type (.ofJson json)) = .ok doc ∧
      r.schema.leafFits type doc = true

/-- A whole number is written as it is, as the text of an identifier or as a finite number. -/
theorem fitsScalar_whole (s : Schema) {type : String} {n : Int}
    (h : (Json.integer n).fitsScalar type = true) :
    (Cursor.typedLeaf s type (.ofJson (.integer n))).isEmpty = false ∧
      (Cursor.typedLeaf s type (.ofJson (.integer n))).toJson.fitsScalar type = true := by
  rw [Value.ofJson, Value.ofWhole]
  cases hn : toInt64? n with
  | some m =>
    simp only [Cursor.typedLeaf]
    split
    · rename_i hid
      subst hid
      exact ⟨rfl, rfl⟩
    · split
      · rename_i hfloat
        subst hfloat
        have hfinite := Double.isFinite_ofInt64 m
        refine ⟨rfl, ?_⟩
        rw [Value.toJson_float hfinite, Json.fitsScalar, hfinite]
        rfl
      · refine ⟨rfl, ?_⟩
        rw [Value.toJson, toInt_of_toInt64? hn]
        exact h
  | none =>
    rw [Json.fitsScalar, hn] at h
    simp only [Option.isSome_none, Bool.false_or, Bool.and_eq_true, decide_eq_true_eq] at h
    obtain ⟨htext, hwhole, hbound⟩ := h
    have hfinite := Double.isFinite_ofInt hbound
    refine ⟨rfl, ?_⟩
    simp only [Cursor.typedLeaf]
    rw [Value.toJson_float hfinite, Json.fitsScalar, hfinite, Bool.and_true]
    simp only [List.contains_cons, List.contains_nil, Bool.or_false, Bool.not_or,
      Bool.and_eq_true] at htext hwhole ⊢
    exact ⟨hwhole.1, htext.1, htext.2, hwhole.2⟩

/-- The value of a leaf is written as a leaf of the same type where no encoder writes it. -/
theorem leafFits_toJson {s : Schema} {type : String} {json : Json}
    (h : s.leafFits type json = true) :
    (Cursor.typedLeaf s type (.ofJson json)).isEmpty = false ∧
      s.leafFits type (Cursor.typedLeaf s type (.ofJson json)).toJson = true := by
  have hfits := h
  rcases Schema.leafFits_iff.1 h with ⟨name, values, v, hfind, rfl, hv⟩ | ⟨name, hfind, h⟩
  · simp only [Value.ofJson, Cursor.typedLeaf, hfind]
    exact ⟨rfl, hfits⟩
  · cases json with
    | null | array _ | object _ => cases h
    | bool b => exact ⟨rfl, hfits⟩
    | string t =>
      simp only [Value.ofJson, Cursor.typedLeaf, hfind]
      split <;> exact ⟨rfl, hfits⟩
    | integer n =>
      obtain ⟨hvalue, hwritten⟩ := fitsScalar_whole s h
      exact ⟨hvalue, Schema.leafFits_iff.2 (.inr ⟨name, hfind, hwritten⟩)⟩
    | double x =>
      refine ⟨rfl, ?_⟩
      rw [Value.ofJson, Cursor.typedLeaf, Value.toJson_float (Bool.and_eq_true_iff.1 h).2]
      · exact hfits
      · exact fun _ heq => by cases heq
      · exact fun _ heq => by cases heq

/-- A leaf is written as a leaf of its type. -/
theorem EncodersFit.encode {r : DocumentRegistry} (hr : r.EncodersFit) {type : String} {json : Json}
    (h : r.schema.leafFits type json = true) :
    ∃ doc, (Mapping.documents r).encode type (Cursor.typedLeaf r.schema type (.ofJson json)) =
      .ok doc ∧ r.schema.leafFits type doc = true := by
  obtain ⟨hvalue, hwritten⟩ := leafFits_toJson h
  rw [Mapping.encode, hvalue, if_neg Bool.false_ne_true]
  cases hencoder : (Mapping.documents r).encoder? type with
  | none => exact ⟨_, rfl, hwritten⟩
  | some encode => exact hr type encode hencoder json h

end Registry

end MappedQuery
