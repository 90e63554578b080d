import Mathlib.Data.List.Infix
import Mathlib.Data.List.MinMax
import MappedQuery.Mapping.Delegation
import MappedQuery.Mapping.Rules
import MappedQuery.Mapping.Validation
import MappedQuery.Proofs.InterfaceLookups

/-!
# Required siblings

Of the entries of a type that is mapped by path a look-up takes the longest ending that fits. A
registry that validates has been asked for the siblings of a computed field at the ending of the
field's own mapping. At a longer path an interface may be mapped by a longer ending, and that
mapping need not have the sibling. So the siblings are found where no interface knows more of the
path than the type does, and they are found at every path if and only if they are found at the
endings that the registry declares.
-/
namespace MappedQuery

namespace Registry

variable {φ ρ μ : Type} {r : Registry φ ρ μ} {path ending : List String} {type name : String}
  {m : ObjectMapping φ ρ μ}

theorem longestEnding_eq_argmax (path : List String)
    (entries : List (List String × ObjectMapping φ ρ μ)) :
    longestEnding path entries =
      (entries.filter fun entry => entry.1.isSuffixOf path).argmax fun entry => entry.1.length := by
  rw [longestEnding, List.argmax, List.foldl_filter]
  congr 1
  funext best? entry
  cases hfits : entry.1.isSuffixOf path with
  | false => rfl
  | true =>
    cases best? with
    | none => rfl
    | some best => simp [List.argAux]

theorem suffix_of_longestEnding {entries : List (List String × ObjectMapping φ ρ μ)}
    {entry : List String × ObjectMapping φ ρ μ} (h : longestEnding path entries = some entry) :
    entry.1 <:+ path := by
  rw [longestEnding_eq_argmax] at h
  exact List.isSuffixOf_iff_suffix.1 (List.mem_filter.1 (List.argmax_mem h)).2

/-- Paths that the same endings fit choose the same entry. -/
theorem longestEnding_congr {p q : List String}
    {entries : List (List String × ObjectMapping φ ρ μ)}
    (h : ∀ entry ∈ entries, entry.1 <:+ p ↔ entry.1 <:+ q) :
    longestEnding p entries = longestEnding q entries := by
  rw [longestEnding_eq_argmax, longestEnding_eq_argmax]
  refine congrArg _ (List.filter_congr fun entry hentry => Bool.eq_iff_iff.2 ?_)
  rw [List.isSuffixOf_iff_suffix, List.isSuffixOf_iff_suffix]
  exact h entry hentry

/-- The endings that a type is mapped by. -/
def endings (r : Registry φ ρ μ) (type : String) : List (List String) :=
  match r.typeMapping? type with
  | some (.byPath _ entries) => entries.map (·.1)
  | _ => []

/-- The empty ending and those that the types of a registry are mapped by. -/
def declaredEndings (r : Registry φ ρ μ) : List (List String) :=
  [] :: r.types.flatMap fun t => r.endings t.type

/-- The ending that the mapping of a type is chosen by at a path, empty if no path tells the
mappings of the type apart. -/
def endingAt (r : Registry φ ρ μ) (path : List String) (type : String) : List String :=
  match r.typeMapping? type with
  | some (.byPath _ entries) => ((longestEnding path entries).map (·.1)).getD []
  | _ => []

theorem endingAt_suffix (r : Registry φ ρ μ) (path : List String) (type : String) :
    r.endingAt path type <:+ path := by
  unfold endingAt
  split
  · cases h : longestEnding path _ with
    | none => exact List.nil_suffix
    | some entry => exact suffix_of_longestEnding h
  · exact List.nil_suffix

theorem objectMapping?_congr {p q : List String}
    (h : ∀ ending ∈ r.endings type, ending <:+ p ↔ ending <:+ q) :
    r.objectMapping? p type = r.objectMapping? q type := by
  unfold endings at h
  unfold objectMapping?
  split
  · rfl
  · rename_i entries heq
    rw [heq] at h
    exact congrArg _ (longestEnding_congr fun entry hentry =>
      h entry.1 (List.mem_map_of_mem hentry))
  · rfl
  · rfl

theorem mem_declaredEndings (h : ending ∈ r.endings type) : ending ∈ r.declaredEndings := by
  have htype : ∃ t, r.typeMapping? type = some t := by
    unfold endings at h
    split at h
    · exact ⟨_, ‹_›⟩
    · cases h
  obtain ⟨t, ht⟩ := htype
  obtain rfl : t.type = type := by simpa using List.find?_some ht
  exact List.mem_cons_of_mem _ (List.mem_flatMap.2 ⟨t, List.mem_of_find?_eq_some ht, h⟩)

/-- A path is mapped as one of the declared endings is, whatever the type. -/
theorem exists_declaredEnding (r : Registry φ ρ μ) (path : List String) :
    ∃ ending ∈ r.declaredEndings, ending <:+ path ∧
      ∀ type, r.objectMapping? ending type = r.objectMapping? path type := by
  cases hbest : (r.declaredEndings.filter (·.isSuffixOf path)).argmax List.length with
  | none =>
    rw [List.argmax_eq_none, List.filter_eq_nil_iff] at hbest
    exact absurd (List.isSuffixOf_iff_suffix.2 List.nil_suffix) (hbest [] List.mem_cons_self)
  | some best =>
    obtain ⟨hdeclared, hfits⟩ := List.mem_filter.1 (List.argmax_mem hbest)
    have hsuffix := List.isSuffixOf_iff_suffix.1 hfits
    refine ⟨best, hdeclared, hsuffix, fun type => objectMapping?_congr fun e he =>
      ⟨fun h => h.trans hsuffix, fun h => ?_⟩⟩
    have he : e ∈ r.declaredEndings.filter (·.isSuffixOf path) :=
      List.mem_filter.2 ⟨mem_declaredEndings he, List.isSuffixOf_iff_suffix.2 h⟩
    exact List.suffix_of_suffix_length_le h hsuffix (List.le_of_mem_argmax he hbest)

/-- The entries of a type that is mapped by path are mappings of that type. -/
def EntriesOfType (r : Registry φ ρ μ) : Prop :=
  ∀ type entries, .byPath type entries ∈ r.types → ∀ entry ∈ entries, entry.2.type = type

variable [SourceField φ]

/-- No finding of the validation is an error. -/
def Validates (r : Registry φ ρ μ) : Prop := ∀ finding ∈ r.validate, finding.severity ≠ .error

/-- A field that is mapped for a type at a path reads a sibling. -/
def Requires (r : Registry φ ρ μ) (path : List String) (type sibling : String) : Prop :=
  ∃ m, r.objectMapping? path type = some m ∧ ∃ f ∈ m.fields, sibling ∈ f.required

/-- A field is mapped if a type that is reached maps it at the path itself. -/
theorem isSome_fieldMapping?_iff (hacyclic : r.schema.Acyclic) :
    (r.fieldMapping? path type name).isSome = true ↔
      ∃ t, r.schema.Reaches type t ∧ (r.ownMapping? path name t).isSome = true := by
  constructor
  · intro h
    obtain ⟨f, hf⟩ := Option.isSome_iff_exists.1 h
    obtain ⟨t, ht, hown⟩ := Schema.reaches_of_search hf
    exact ⟨t, ht, Option.isSome_iff_exists.2 ⟨f, hown⟩⟩
  · rintro ⟨t, ht, hown⟩
    exact hacyclic.isSome_search ht hown

theorem fieldMapping?_congr {p q : List String}
    (h : ∀ t, r.objectMapping? p t = r.objectMapping? q t) :
    r.fieldMapping? p type name = r.fieldMapping? q type name := by
  unfold fieldMapping?
  congr 1
  funext t
  rw [h t]

/-- A mapping that is chosen at a path has been validated at the ending that it is chosen by. -/
theorem Validates.of_objectMapping? (hvalid : r.Validates) (hentries : r.EntriesOfType)
    (hm : r.objectMapping? path type = some m) :
    m.type = type ∧ ∀ finding ∈ r.validateObject (r.endingAt path type) m,
      finding.severity ≠ .error := by
  have hof {t : TypeMapping φ ρ μ} (ht : r.typeMapping? type = some t) :
      t.type = type ∧ ∃ d, r.schema.find? t.type = some d ∧
        ∀ finding ∈ r.validateType t, finding.severity ≠ .error := by
    have hfindings : ∀ finding ∈ r.validateType t, finding.severity ≠ .error := fun finding hf =>
      hvalid finding (List.mem_append_left _
        (List.mem_flatMap.2 ⟨t, List.mem_of_find?_eq_some ht, hf⟩))
    refine ⟨by simpa using List.find?_some ht, ?_⟩
    cases hd : r.schema.find? t.type with
    | none =>
      rw [validateType, hd] at hfindings
      exact absurd rfl (hfindings _ List.mem_cons_self)
    | some d => exact ⟨d, rfl, hfindings⟩
  unfold objectMapping? at hm
  unfold endingAt
  split at hm
  · rename_i heq
    obtain ⟨htype, d, hd, hfindings⟩ := hof heq
    cases hm
    rw [validateType, hd] at hfindings
    rw [heq]
    exact ⟨htype, hfindings⟩
  · rename_i entries heq
    obtain ⟨htype, d, hd, hfindings⟩ := hof heq
    obtain ⟨entry, hentry, rfl⟩ := Option.map_eq_some_iff.1 hm
    have hmem := mem_of_longestEnding hentry
    rw [validateType, hd] at hfindings
    rw [heq]
    refine ⟨(hentries _ _ (List.mem_of_find?_eq_some heq) entry hmem).trans htype, ?_⟩
    simp only [hentry, Option.map_some, Option.getD_some]
    exact fun finding hf => hfindings finding (List.mem_flatMap.2 ⟨entry, hmem, hf⟩)
  · cases hm
  · cases hm

/-- The fields of a mapping that validates are hidden or declared. -/
theorem Validates.hidden_or_declared (hvalid : r.Validates) (hentries : r.EntriesOfType)
    (hm : r.objectMapping? path type = some m) {f : FieldMapping φ ρ μ} (hf : f ∈ m.fields) :
    f.hidden = true ∨ (r.schema.field? type f.name).isSome = true := by
  obtain ⟨rfl, hfindings⟩ := hvalid.of_objectMapping? hentries hm
  by_contra hneither
  obtain ⟨hshown, hunknown⟩ := not_or.1 hneither
  refine hfindings (.unknownField f.name m.type)
    (List.mem_flatMap.2 ⟨f, hf, List.mem_append_left _ ?_⟩) rfl
  rw [if_pos (by simp_all)]
  exact List.mem_cons_self

/-- A required sibling is mapped at the ending that the mapping of the field is chosen by. -/
theorem Validates.isSome_at_ending (hvalid : r.Validates) (hentries : r.EntriesOfType)
    (h : r.Requires path type name) :
    (r.fieldMapping? (r.endingAt path type) type name).isSome = true := by
  obtain ⟨m, hm, f, hf, hrequired⟩ := h
  obtain ⟨rfl, hfindings⟩ := hvalid.of_objectMapping? hentries hm
  by_contra hunmapped
  refine hfindings (.unmappedRequirement f.name m.type name)
    (List.mem_flatMap.2 ⟨f, hf, List.mem_append_right _ ?_⟩) rfl
  exact List.mem_map_of_mem (List.mem_filter.2 ⟨hrequired, by simpa using hunmapped⟩)

/-- In a registry that validates mapped fields are hidden or declared. The siblings that they
require are mapped at every path at which no interface knows more of the path than the type does,
and at all paths if and only if they are at the declared endings. -/
theorem siblings_are_mapped_iff (hacyclic : r.schema.Acyclic) (hentries : r.EntriesOfType)
    (hvalid : r.Validates) :
    (∀ path type m, r.objectMapping? path type = some m → ∀ f ∈ m.fields,
      f.hidden = true ∨ (r.schema.field? type f.name).isSome = true) ∧
    (∀ path type sibling, r.Requires path type sibling →
      (∀ t, r.schema.Reaches type t → ∀ ending ∈ r.endings t, ending <:+ path →
        ending <:+ r.endingAt path type) →
      (r.fieldMapping? path type sibling).isSome = true) ∧
    ((∀ path type sibling, r.Requires path type sibling →
        (r.fieldMapping? path type sibling).isSome = true) ↔
      ∀ ending ∈ r.declaredEndings, ∀ type sibling, r.Requires ending type sibling →
        (r.fieldMapping? ending type sibling).isSome = true) := by
  refine ⟨fun path type m hm f => hvalid.hidden_or_declared hentries hm, ?_, ?_, ?_⟩
  · intro path type sibling hrequires hknown
    obtain ⟨t, ht, hown⟩ :=
      (isSome_fieldMapping?_iff hacyclic).1 (hvalid.isSome_at_ending hentries hrequires)
    refine (isSome_fieldMapping?_iff hacyclic).2 ⟨t, ht, ?_⟩
    have hsame : r.objectMapping? (r.endingAt path type) t = r.objectMapping? path t :=
      objectMapping?_congr fun ending hending =>
        ⟨fun h => h.trans (r.endingAt_suffix path type), hknown t ht ending hending⟩
    rwa [ownMapping?, ← hsame]
  · exact fun h ending _ => h ending
  · rintro h path type sibling ⟨m, hm, hf⟩
    obtain ⟨ending, hdeclared, -, hsame⟩ := r.exists_declaredEnding path
    rw [← fieldMapping?_congr hsame]
    exact h ending hdeclared type sibling ⟨m, (hsame type).trans hm, hf⟩

end Registry

namespace Badges

def text (name : String) : FieldDefinition := ⟨name, [], .nullable (.named "String")⟩

/-- Badges are named, and their labels are made from the name. -/
def schema : Schema := .ofTypes
  [.object ⟨"Query", [⟨"pin", [], .named "Badge"⟩], []⟩,
    .interface ⟨"Named", [text "name", text "code"], []⟩,
    .object ⟨"Badge", [text "name", text "code", text "label"], ["Named"]⟩]
  "Query"

/-- What is named has these fields at `pin`, and only a name elsewhere. -/
def registry (pinned : List String) : DocumentRegistry where
  schema := schema
  types :=
    [.object ⟨"Badge", [.computed ⟨"label", ["name"], .field "name"⟩ false]⟩,
      .byPath "Named" [([], ⟨"Named", [.source (.same "name")]⟩),
        (["pin"], ⟨"Named", pinned.map fun name => .source (.same name)⟩)]]
  elaborators := []

theorem acyclic : schema.Acyclic := Schema.acyclic_of_types (by decide)

theorem entriesOfType (pinned : List String) : (registry pinned).EntriesOfType := by
  intro type entries hbyPath entry hentry
  simp [registry] at hbyPath
  obtain ⟨rfl, rfl⟩ := hbyPath
  rcases List.mem_cons.1 hentry with rfl | hentry
  · rfl
  · rw [List.mem_singleton.1 hentry]

theorem validates_of_finding {pinned : List String}
    (h : (registry pinned).validate = [.objectWithoutMapping "Query"]) :
    (registry pinned).Validates := by
  intro finding hfinding
  rw [h] at hfinding
  rw [List.mem_singleton.1 hfinding]
  decide

theorem label_requires_name (pinned : List String) (path : List String) :
    (registry pinned).Requires path "Badge" "name" :=
  ⟨_, rfl, _, List.mem_cons_self, List.mem_cons_self⟩

/-- Only labels require anything. -/
theorem eq_of_requires {pinned path : List String} {type sibling : String}
    (h : (registry pinned).Requires path type sibling) : type = "Badge" ∧ sibling = "name" := by
  obtain ⟨m, hm, f, hf, hrequired⟩ := h
  by_cases hbadge : "Badge" = type
  · subst hbadge
    cases hm
    rw [List.mem_singleton.1 hf] at hrequired
    exact ⟨rfl, List.mem_singleton.1 hrequired⟩
  · by_cases hnamed : "Named" = type
    · subst hnamed
      obtain ⟨entry, hentry, rfl⟩ := Option.map_eq_some_iff.1 hm
      have hsource : ∃ name, f = .source (.same name) := by
        rcases List.mem_cons.1 (Registry.mem_of_longestEnding hentry) with rfl | hmem
        · exact ⟨"name", List.mem_singleton.1 hf⟩
        · rw [List.mem_singleton.1 hmem] at hf
          obtain ⟨name, -, rfl⟩ := List.mem_map.1 hf
          exact ⟨name, rfl⟩
      obtain ⟨name, rfl⟩ := hsource
      cases hrequired
    · simp [Registry.objectMapping?, Registry.typeMapping?, registry, TypeMapping.type, hbadge,
        hnamed] at hm

/-- With the name at `pin` as well all labels have it. -/
theorem names_are_mapped :
    schema.Acyclic ∧ (registry ["code", "name"]).EntriesOfType ∧
      (registry ["code", "name"]).Validates ∧
      ∀ path, ((registry ["code", "name"]).fieldMapping? path "Badge" "name").isSome = true := by
  have hvalid : (registry ["code", "name"]).Validates := validates_of_finding (by decide +kernel)
  refine ⟨acyclic, entriesOfType _, hvalid, fun path => ?_⟩
  refine (Registry.siblings_are_mapped_iff acyclic (entriesOfType _) hvalid).2.2.2 ?_
    path "Badge" "name" (label_requires_name _ path)
  intro ending hending type sibling hrequires
  obtain ⟨rfl, rfl⟩ := eq_of_requires hrequires
  have hcases : ending = [] ∨ ending = ["pin"] := by
    simpa [Registry.declaredEndings, Registry.endings, Registry.typeMapping?, registry,
      TypeMapping.type] using hending
  rcases hcases with rfl | rfl
  · rfl
  · rfl

/-- With the code only the mapping validates, and the label of the badge at `pin` requires a name
that is not mapped there. -/
theorem name_at_pin_is_missed :
    schema.Acyclic ∧ (registry ["code"]).EntriesOfType ∧ (registry ["code"]).Validates ∧
      (registry ["code"]).Requires ["pin"] "Badge" "name" ∧
      (registry ["code"]).fieldMapping? ["pin"] "Badge" "name" = none := by
  refine ⟨acyclic, entriesOfType _, validates_of_finding ?_, label_requires_name _ _, ?_⟩
  · decide +kernel
  · rfl

end Badges

end MappedQuery
