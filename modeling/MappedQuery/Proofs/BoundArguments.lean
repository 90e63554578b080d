import MappedQuery.Mapping.Delegation
import MappedQuery.Proofs.Sequencing
import MappedQuery.Request.Arguments

/-!
# Bound arguments fit their types

What the arguments of a selection are bound to fits the declaration of the field: one value for each
argument, in order, absent only where a nullable argument without a default is not supplied, and
else a value of the declared type, input objects field by field. One thing is not taken care of: an
element of a list that is absent stays absent, whatever the type of the elements. `Value.hasGap`
tells the values in which that happens.
-/
namespace MappedQuery

namespace Value

mutual

/-- Whether a list in the value has an absent element. -/
def hasGap : Value → Bool
  | list values => values.any (·.isAbsent) || hasGapElements values
  | object members => hasGapMembers members
  | _ => false

def hasGapElements : List Value → Bool
  | [] => false
  | v :: rest => hasGap v || hasGapElements rest

def hasGapMembers : List (String × Value) → Bool
  | [] => false
  | (_, v) :: rest => hasGap v || hasGapMembers rest

end

end Value

namespace Schema

/-- Whether a scalar type has a value: a built-in one those of its own kind, any other one
everything that carries data. -/
def scalarTakes (name : String) (v : Value) : Bool :=
  if builtinScalars.contains name then v.kind = name else !v.isEmpty

variable (s : Schema) (gaps : Bool)

mutual

/-- A value is one of an input type. Where `gaps` says so, lists may have absent elements. -/
inductive Fits : TypeRef → Value → Prop
  | null {inner : TypeRef} : Fits (.nullable inner) .null
  | present {inner : TypeRef} {v : Value} (h : Fits inner v) : Fits (.nullable inner) v
  | list {item : TypeRef} {elements : List Value} (hgaps : .absent ∈ elements → gaps = true)
    (h : ∀ e ∈ elements, e ≠ .absent → Fits item e) : Fits (.list item) (.list elements)
  | scalar {name : String} {v : Value} (hfind : s.find? name = some (.scalar name))
    (h : scalarTakes name v = true) : Fits (.named name) v
  | enum {name value : String} {values : List String}
    (hfind : s.find? name = some (.enum name values)) (h : value ∈ values) :
    Fits (.named name) (.enum value)
  | object {name : String} {o : InputObjectDefinition} {members : List (String × Value)}
    (hfind : s.find? name = some (.input o)) (h : FitAll o.fields members) :
    Fits (.named name) (.object members)

/-- What an argument or a field of an input object is bound to. -/
inductive FitsInput : InputDefinition → Value → Prop
  | unsupplied {i : InputDefinition} (hnullable : i.type.isNullable = true)
    (hdefault : i.default? = none) : FitsInput i .absent
  | supplied {i : InputDefinition} {v : Value} (h : Fits i.type v) : FitsInput i v

/-- One value for each input, in order and under its name. -/
inductive FitAll : List InputDefinition → List (String × Value) → Prop
  | nil : FitAll [] []
  | cons {i : InputDefinition} {v : Value} {inputs : List InputDefinition}
    {values : List (String × Value)} (hhead : FitsInput i v) (htail : FitAll inputs values) :
    FitAll (i :: inputs) ((i.name, v) :: values)

end

variable {s gaps} in
/-- Absent is a value of no type. -/
theorem not_fits_absent : ∀ {t : TypeRef}, ¬ s.Fits gaps t .absent
  | _, .present h => not_fits_absent h
  | _, .scalar _ h => by
    unfold scalarTakes at h
    split at h
    · rename_i hbuiltin
      rw [← of_decide_eq_true h] at hbuiltin
      exact absurd hbuiltin (by decide)
    · cases h

/-- The default of an input is a value of its type. -/
def DefaultFits (i : InputDefinition) : Prop := ∀ v, i.default? = some v → s.Fits false i.type v

/-- Every default that the schema declares is a value of the type that it is declared for. -/
structure DefaultsFit : Prop where
  argument : ∀ d ∈ s.types, ∀ f ∈ d.fields, ∀ i ∈ f.arguments, s.DefaultFits i
  member : ∀ o, .input o ∈ s.types → ∀ i ∈ o.fields, s.DefaultFits i

variable {s gaps}

mutual

/-- What fits without gaps fits. -/
theorem Fits.mono {t : TypeRef} {v : Value} : s.Fits false t v → s.Fits gaps t v
  | .null => .null
  | .present h => .present h.mono
  | .list hgaps h => .list (fun ha => Bool.noConfusion (hgaps ha)) fun e he ha => (h e he ha).mono
  | .scalar hfind h => .scalar hfind h
  | .enum hfind h => .enum hfind h
  | .object hfind h => .object hfind h.mono

theorem FitsInput.mono {i : InputDefinition} {v : Value} :
    s.FitsInput false i v → s.FitsInput gaps i v
  | .unsupplied hnullable hdefault => .unsupplied hnullable hdefault
  | .supplied h => .supplied h.mono

theorem FitAll.mono {inputs : List InputDefinition} {values : List (String × Value)} :
    s.FitAll false inputs values → s.FitAll gaps inputs values
  | .nil => .nil
  | .cons hhead htail => .cons hhead.mono htail.mono

end

theorem DefaultsFit.mem_arguments (hs : s.DefaultsFit) {type name : String} {f : FieldDefinition}
    (hf : s.field? type name = some f) : ∀ i ∈ f.arguments, s.DefaultFits i := by
  obtain ⟨t, ht⟩ := exists_of_search hf
  obtain ⟨d, hd, hfield⟩ := Option.bind_eq_some_iff.1 ht
  exact hs.argument d (List.mem_of_find?_eq_some hd) f (List.mem_of_find?_eq_some hfield)

end Schema

section Extract

variable {α : Type} {test : α → Bool} {items others : List α} {a : α}

/-- The last item moves to the place of one that is taken out. -/
theorem parts_of_extract? (h : extract? test items = some (a, others)) :
    ∃ front back, items = front ++ a :: back ∧ test a = true ∧ (∀ b ∈ front, test b = false) ∧
      others = front ++ (back.getLast?.toList ++ back.dropLast) := by
  unfold extract? at h
  split at h
  · rename_i i last hi hlast
    obtain ⟨hlt, ha, hfront⟩ := List.findIdx?_eq_some_iff_getElem.1 hi
    obtain ⟨b, hb, heq⟩ := Option.map_eq_some_iff.1 h
    cases heq
    obtain ⟨_, rfl⟩ := List.getElem?_eq_some_iff.1 hb
    have hitems : items = items.take i ++ items[i] :: items.drop (i + 1) := by simp
    refine ⟨items.take i, items.drop (i + 1), hitems, ha, fun b hb => ?_, ?_⟩
    · obtain ⟨j, hj, rfl⟩ := List.mem_iff_getElem.1 hb
      rw [List.getElem_take]
      rw [List.length_take] at hj
      exact Bool.eq_false_iff.2 (hfront j (by omega))
    · rw [List.set_eq_take_append_cons_drop, if_pos hlt, List.dropLast_append_of_ne_nil (by simp)]
      congr 1
      rcases List.eq_nil_or_concat (items.drop (i + 1)) with hback | ⟨back, l, hback⟩
      · simp [hback]
      · have hlast' : (items.take i ++ items[i] :: (back ++ [l])).getLast? = some last := by
          rwa [← List.concat_eq_append, ← hback, ← hitems]
        have hl : l = last := by
          rw [show items.take i ++ items[i] :: (back ++ [l]) =
            (items.take i ++ items[i] :: back) ++ [l] by simp, List.getLast?_concat] at hlast'
          exact Option.some.inj hlast'
        rw [hback, hl, List.concat_eq_append, List.getLast?_concat, List.dropLast_concat,
          ← List.cons_append, List.dropLast_concat]
        rfl
  · cases h

theorem mem_of_extract? (h : extract? test items = some (a, others)) :
    a ∈ items ∧ ∀ b ∈ others, b ∈ items := by
  obtain ⟨front, back, rfl, -, -, rfl⟩ := parts_of_extract? h
  refine ⟨by simp, fun b hb => ?_⟩
  rcases List.mem_append.1 hb with hb | hb
  · exact List.mem_append_left _ hb
  · refine List.mem_append_right _ (List.mem_cons_of_mem _ ?_)
    rcases List.mem_append.1 hb with hb | hb
    · exact List.mem_of_getLast? (Option.mem_toList.1 hb)
    · exact List.dropLast_subset _ hb

theorem find?_of_extract? (h : extract? test items = some (a, others)) :
    items.find? test = some a := by
  obtain ⟨front, back, rfl, ha, hfront, -⟩ := parts_of_extract? h
  exact List.find?_eq_some_iff_append.2 ⟨ha, front, back, rfl, fun b hb => by simp [hfront b hb]⟩

theorem extract?_eq_none (h : extract? test items = none) : items.find? test = none := by
  unfold extract? at h
  split at h
  · rename_i i _ hi _
    obtain ⟨hlt, -⟩ := List.findIdx?_eq_some_iff_getElem.1 hi
    simp [hlt] at h
  · rename_i hnone
    rw [List.find?_eq_bind_findIdx?_getElem?]
    cases hi : items.findIdx? test with
    | none => rfl
    | some i =>
      cases hlast : items.getLast? with
      | none => rw [List.getLast?_eq_none_iff.1 hlast] at hi; cases hi
      | some last => exact absurd hlast (hnone i last hi)

end Extract

section Binding

variable {s : Schema} {gaps : Bool}

/-- What is not supplied has its default, or is absent where that is allowed. -/
theorem fitsInput_unsupplied {i : InputDefinition} (hi : s.DefaultFits i)
    {missing : String → ArgumentFault} {v : Value} (h : i.unsupplied missing = .ok v) :
    s.FitsInput gaps i v := by
  unfold InputDefinition.unsupplied at h
  split at h
  · rename_i default hdefault
    cases h
    exact .supplied (hi _ hdefault).mono
  · rename_i hdefault
    split at h
    · rename_i hnullable
      cases h
      exact .unsupplied hnullable hdefault
    · cases h

/-- Binding keeps the order of the declaration, whatever the order of what is supplied. -/
theorem fitAll_bindInputs {missing : String → ArgumentFault} :
    ∀ {inputs : List InputDefinition} {supplied : List Supplied} {values : List (String × Value)},
      (∀ i ∈ inputs, s.DefaultFits i) →
      (∀ g ∈ supplied, g.isAbsent = false → ∀ t v, g.coerce t = .ok v → s.Fits gaps t v) →
      bindInputs missing inputs supplied = .ok values → s.FitAll gaps inputs values
  | [], supplied, values, _, _, h => by
    cases h
    exact .nil
  | i :: rest, supplied, values, hdefaults, hsupplied, h => by
    have hi := hdefaults i List.mem_cons_self
    have hrest := fun j hj => hdefaults j (List.mem_cons_of_mem i hj)
    unfold bindInputs at h
    split at h
    · obtain ⟨v, hv, h⟩ := bind_eq_ok.1 h
      obtain ⟨others, hothers, h⟩ := bind_eq_ok.1 h
      obtain rfl := pure_eq_ok.1 h
      exact .cons (fitsInput_unsupplied hi hv) (fitAll_bindInputs hrest hsupplied hothers)
    · rename_i given others hextract
      obtain ⟨hgiven, hothers⟩ := mem_of_extract? hextract
      have h : ((if given.isAbsent then i.unsupplied missing else given.coerce i.type) >>= fun v =>
          bindInputs missing rest others >>= fun bound => pure ((i.name, v) :: bound)) =
          .ok values := by
        cases habsent : given.isAbsent <;> simpa [habsent] using h
      obtain ⟨v, hv, h⟩ := bind_eq_ok.1 h
      obtain ⟨bound, hbound, h⟩ := bind_eq_ok.1 h
      obtain rfl := pure_eq_ok.1 h
      refine .cons ?_ (fitAll_bindInputs hrest (fun g hg => hsupplied g (hothers g hg)) hbound)
      split at hv
      · exact fitsInput_unsupplied hi hv
      · rename_i habsent
        exact .supplied (hsupplied given hgiven (Bool.eq_false_iff.2 habsent) _ _ hv)

end Binding

namespace Coercion

variable {s : Schema} {gaps : Bool} {v w : Value}

theorem scalarTakes_scalar {name : String} (hv : v.isEmpty = false)
    (h : scalar name v = .ok w) : Schema.scalarTakes name w = true := by
  unfold scalar at h
  split at h
  any_goals
    cases h
    rfl
  split at h
  · cases h
  · rename_i hcustom
    cases h
    rw [Schema.scalarTakes, if_neg hcustom, hv]
    rfl

theorem mem_of_enum {name : String} {values : List String} (h : enum name values v = .ok w) :
    ∃ value ∈ values, w = .enum value := by
  unfold enum at h
  split at h
  · split at h
    · rename_i value hvalue
      cases h
      exact ⟨value, List.contains_iff_mem.1 hvalue, rfl⟩
    · cases h
  · split at h
    · rename_i value hvalue
      cases h
      exact ⟨value, List.contains_iff_mem.1 hvalue, rfl⟩
    · cases h
  · cases h

/-- A value that carries data becomes one of the named type, its members at the types of their
fields. -/
theorem fits_named (hs : s.DefaultsFit) {name : String} {members : List Supplied}
    (hv : v.isEmpty = false)
    (hmembers : ∀ m ∈ members, m.isAbsent = false → ∀ t w, m.coerce t = .ok w → s.Fits gaps t w)
    (h : named s name v members = .ok w) : s.Fits gaps (.named name) w := by
  unfold named at h
  split at h
  · rename_i found hfind
    obtain rfl : found = name := Schema.name_of_find? hfind
    exact .scalar hfind (scalarTakes_scalar hv h)
  · rename_i found values hfind
    obtain rfl : found = name := Schema.name_of_find? hfind
    obtain ⟨value, hvalue, rfl⟩ := mem_of_enum h
    exact .enum hfind hvalue
  · rename_i o hfind
    split at h
    · unfold inputObject at h
      split at h
      · obtain ⟨values, hvalues, rfl⟩ := map_eq_ok.1 h
        have hdefaults := hs.member o (List.mem_of_find?_eq_some hfind)
        exact .object hfind (fitAll_bindInputs hdefaults hmembers hvalues)
      · cases h
    · cases h
  · cases h

/-- A value becomes one of a type if its elements and members do. Absent is no value of a type; it
passes a list by only as an element. -/
theorem fits_withParts (hs : s.DefaultsFit) {elements : List Coercion} {members : List Supplied}
    (hv : v ≠ .absent)
    (helements : ∀ e ∈ elements, ∀ t w, e t = .ok w →
      (w = .absent → gaps = true) ∧ (w ≠ .absent → s.Fits gaps t w))
    (hmembers : ∀ m ∈ members, m.isAbsent = false → ∀ t w, m.coerce t = .ok w → s.Fits gaps t w) :
    ∀ {t : TypeRef} {w : Value}, withParts s v elements members t = .ok w → s.Fits gaps t w
  | .nullable inner, w, h => by
    unfold withParts at h
    split at h
    · cases h
      exact .null
    · exact .present (fits_withParts hs hv helements hmembers h)
  | .list item, w, h => by
    unfold withParts at h
    split at h
    · cases h
    · exact absurd rfl hv
    · obtain ⟨ws, hws, rfl⟩ := map_eq_ok.1 h
      refine .list (fun habsent => ?_) fun e he hpresent => ?_
      · obtain ⟨e, he, heq⟩ := exists_of_mem_mapM hws habsent
        exact (helements e he item _ heq).1 rfl
      · obtain ⟨c, hc, heq⟩ := exists_of_mem_mapM hws he
        exact (helements c hc item e heq).2 hpresent
    · obtain ⟨only, honly, h⟩ := bind_eq_ok.1 h
      obtain rfl := pure_eq_ok.1 h
      have hfits := fits_withParts hs hv helements hmembers honly
      refine .list (fun habsent => ?_) fun e he _ => ?_
      · rw [← List.mem_singleton.1 habsent] at hfits
        exact absurd hfits Schema.not_fits_absent
      · rwa [List.mem_singleton.1 he]
  | .named name, w, h => by
    unfold withParts at h
    split at h
    · cases h
    · exact absurd rfl hv
    · rename_i hnull _
      refine fits_named hs ?_ hmembers h
      rw [Bool.eq_false_iff, ne_eq, Value.isEmpty_iff]
      exact fun hempty => hempty.elim hv hnull

/-- Absent stays absent, whatever the type. -/
theorem eq_absent_of_withParts {elements : List Coercion} {members : List Supplied} :
    ∀ {t : TypeRef}, withParts s .absent elements members t = .ok .absent
  | .nullable inner => by
    rw [withParts]
    · exact eq_absent_of_withParts
    · exact fun h => by cases h
  | .list item => by rw [withParts]
  | .named name => by rw [withParts]

end Coercion

namespace Value

variable {s : Schema} {gaps : Bool}

theorem coerce_absent (t : TypeRef) : absent.coerce s t = .ok .absent := by
  rw [coerce]
  · exact Coercion.eq_absent_of_withParts
  · exact fun _ h => by cases h
  · exact fun _ h => by cases h

mutual

/-- What a value becomes at a type is a value of the type, with gaps only where it had some. -/
theorem fits_coerce (hs : s.DefaultsFit) : ∀ {v : Value}, v ≠ absent →
    (v.hasGap = true → gaps = true) → ∀ {t : TypeRef} {w : Value}, v.coerce s t = .ok w →
      s.Fits gaps t w
  | .list values, hv, hgaps, t, w, h => by
    rw [coerce] at h
    rw [hasGap, Bool.or_eq_true] at hgaps
    refine Coercion.fits_withParts hs hv (fun e he t w heq => ?_) (fun m hm => by cases hm) h
    exact fits_coerceElements hs (fun habsent => hgaps (.inl (List.any_eq_true.2
      ⟨_, habsent, rfl⟩))) (fun hgap => hgaps (.inr hgap)) e he t w heq
  | .object members, hv, hgaps, t, w, h => by
    rw [coerce] at h
    rw [hasGap] at hgaps
    exact Coercion.fits_withParts hs hv (fun e he => by cases he)
      (fits_coerceMembers hs hgaps) h
  | .absent, hv, _, _, _, _ => absurd rfl hv
  | .null, hv, _, _, _, h | .int _, hv, _, _, _, h | .float _, hv, _, _, _, h
  | .string _, hv, _, _, _, h | .boolean _, hv, _, _, _, h | .id _, hv, _, _, _, h
  | .enum _, hv, _, _, _, h | .reference _, hv, _, _, _, h => by
    rw [coerce] at h
    · exact Coercion.fits_withParts hs hv (fun e he => by cases he) (fun m hm => by cases hm) h
    · exact fun _ heq => by cases heq
    · exact fun _ heq => by cases heq

theorem fits_coerceElements (hs : s.DefaultsFit) : ∀ {values : List Value},
    (.absent ∈ values → gaps = true) → (hasGapElements values = true → gaps = true) →
      ∀ e ∈ coerceElements s values, ∀ t w, e t = .ok w →
        (w = .absent → gaps = true) ∧ (w ≠ .absent → s.Fits gaps t w)
  | [], _, _, e, he, _, _, _ => by
    rw [coerceElements] at he
    cases he
  | v :: rest, habsent, hgaps, e, he, t, w, heq => by
    rw [coerceElements] at he
    rw [hasGapElements, Bool.or_eq_true] at hgaps
    rcases List.mem_cons.1 he with rfl | he
    · by_cases hv : v = .absent
      · subst hv
        rw [coerce_absent] at heq
        cases heq
        exact ⟨fun _ => habsent List.mem_cons_self, fun h => absurd rfl h⟩
      · have hfits := fits_coerce hs hv (fun hgap => hgaps (.inl hgap)) heq
        exact ⟨fun h => absurd (h ▸ hfits) Schema.not_fits_absent, fun _ => hfits⟩
    · exact fits_coerceElements hs (fun h => habsent (List.mem_cons_of_mem _ h))
        (fun hgap => hgaps (.inr hgap)) e he t w heq

theorem fits_coerceMembers (hs : s.DefaultsFit) : ∀ {members : List (String × Value)},
    (hasGapMembers members = true → gaps = true) → ∀ m ∈ coerceMembers s members,
      m.isAbsent = false → ∀ t w, m.coerce t = .ok w → s.Fits gaps t w
  | [], _, m, hm, _, _, _, _ => by
    rw [coerceMembers] at hm
    cases hm
  | (key, v) :: rest, hgaps, m, hm, habsent, t, w, heq => by
    rw [coerceMembers] at hm
    rw [hasGapMembers, Bool.or_eq_true] at hgaps
    rcases List.mem_cons.1 hm with rfl | hm
    · have hv : v ≠ .absent := fun h => by simp [h, isAbsent] at habsent
      exact fits_coerce hs hv (fun hgap => hgaps (.inl hgap)) heq
    · exact fits_coerceMembers hs (fun hgap => hgaps (.inr hgap)) m hm habsent t w heq

end

end Value

namespace FieldDefinition

/-- The arguments of a selection are bound one for each that the field declares, in order, and each
to a value that fits it. Lists have absent elements only if some that were supplied have. -/
theorem bound_arguments_fit {s : Schema} (hs : s.DefaultsFit) {type name : String}
    {f : FieldDefinition} (hf : s.field? type name = some f) {bindings bound : List Binding}
    (h : f.bindArguments s bindings = .ok bound) :
    s.FitAll (bindings.any (·.value.hasGap)) f.arguments
      (bound.map fun b => (b.name, b.value)) := by
  unfold bindArguments at h
  split at h
  · obtain ⟨values, hvalues, h⟩ := bind_eq_ok.1 h
    obtain rfl := pure_eq_ok.1 h
    rw [List.map_map, List.map_congr_left (g := id), List.map_id]
    · refine fitAll_bindInputs (hs.mem_arguments hf) (fun g hg hpresent t v hcoerce => ?_) hvalues
      obtain ⟨b, hb, rfl⟩ := List.mem_map.1 hg
      have hvalue : b.value ≠ .absent := fun habsent => by
        simp [habsent, Value.isAbsent] at hpresent
      exact Value.fits_coerce hs hvalue (fun hgap => List.any_eq_true.2 ⟨b, hb, hgap⟩) hcoerce
    · exact fun _ _ => rfl
  · cases h

end FieldDefinition

namespace Cities

def filter : InputObjectDefinition :=
  ⟨"CityFilter", [
    ⟨"name", .nullable (.named "String"), none⟩,
    ⟨"limit", .nullable (.named "Int"), some (.int 10)⟩,
    ⟨"exact", .named "Boolean", none⟩, ⟨"tags", .nullable (.list (.named "ID")), none⟩]⟩

def cities : FieldDefinition :=
  ⟨"cities", [
    ⟨"filter", .named "CityFilter", none⟩,
    ⟨"kinds", .nullable (.list (.named "Kind")), some (.list [.enum "BIG"])⟩,
    ⟨"near", .nullable (.named "Point"), none⟩], .named "String"⟩

def schema : Schema :=
  .ofTypes [
    .object ⟨"Query", [cities], []⟩, .input filter, .enum "Kind" ["BIG", "SMALL"], .scalar "Point"]
    "Query"

/-- The name of the filter is a variable that was not supplied, its tags are a single text. -/
def supplied : List Binding :=
  [⟨"near", .list [.int 52, .null]⟩,
    ⟨"filter", .object [("exact", .boolean true), ("name", .absent), ("tags", .string "port")]⟩]

def bound : List Binding :=
  [⟨"filter", .object [
      ("name", .absent), ("limit", .int 10), ("exact", .boolean true),
      ("tags", .list [.id "port"])]⟩,
    ⟨"kinds", .list [.enum "BIG"]⟩, ⟨"near", .list [.int 52, .null]⟩]

theorem defaultsFit : schema.DefaultsFit where
  argument d hd f hf i hi v hv := by
    simp only [schema, Schema.ofTypes, Schema.builtinScalars, List.map_cons, List.map_nil,
      List.cons_append, List.nil_append, List.mem_cons, List.not_mem_nil, or_false] at hd
    rcases hd with rfl | rfl | rfl | rfl | rfl | rfl | rfl | rfl | rfl <;>
      simp only [TypeDefinition.fields, List.mem_cons, List.not_mem_nil, or_false] at hf
    subst hf
    simp only [cities, List.mem_cons, List.not_mem_nil, or_false] at hi
    rcases hi with rfl | rfl | rfl <;> cases hv
    refine .present (.list (fun h => ?_) fun e he _ => ?_)
    · simp at h
    · rw [List.mem_singleton.1 he]
      have hvalues : schema.find? "Kind" = some (.enum "Kind" ["BIG", "SMALL"]) := rfl
      exact .enum hvalues (by decide)
  member o ho i hi v hv := by
    simp only [schema, Schema.ofTypes, Schema.builtinScalars, List.map_cons, List.map_nil,
      List.cons_append, List.nil_append, List.mem_cons, List.not_mem_nil, or_false, reduceCtorEq,
      TypeDefinition.input.injEq, false_or] at ho
    subst ho
    simp only [filter, List.mem_cons, List.not_mem_nil, or_false] at hi
    rcases hi with rfl | rfl | rfl | rfl <;> cases hv
    exact .present (.scalar rfl rfl)

theorem cities_is_bound : schema.DefaultsFit ∧ schema.field? "Query" "cities" = some cities ∧
    cities.bindArguments schema supplied = .ok bound ∧
      schema.FitAll false cities.arguments (bound.map fun b => (b.name, b.value)) := by
  have hfield : schema.field? "Query" "cities" = some cities := rfl
  have hbound : cities.bindArguments schema supplied = .ok bound := rfl
  exact ⟨defaultsFit, hfield, hbound, cities.bound_arguments_fit defaultsFit hfield hbound⟩

end Cities

end MappedQuery
