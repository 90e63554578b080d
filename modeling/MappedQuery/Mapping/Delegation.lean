import MappedQuery.Mapping.Registry

/-!
# Delegation ends

The mapping that a field is delegated to is a part of the mapping that declares the field, so a
chain of delegations cannot go on for ever. `Mapping.sizeOf_target_lt` is the measure by which
the interpreter ends.
-/
namespace MappedQuery

namespace Registry

variable {φ ρ μ : Type}

theorem sizeOf_lt_of_mem_allFields [SizeOf φ] [SizeOf ρ] [SizeOf μ] {r : Registry φ ρ μ}
    {f : FieldMapping φ ρ μ}
    (h : f ∈ r.allFields) : sizeOf f < sizeOf r := by
  obtain ⟨schema, types, elaborators⟩ := r
  simp only [allFields, List.mem_flatMap] at h
  obtain ⟨t, ht, h⟩ := h
  have hs := List.sizeOf_lt_of_mem ht
  cases t with
  | object m =>
    have hf := List.sizeOf_lt_of_mem h
    cases m
    simp_all only [TypeMapping.object.sizeOf_spec, ObjectMapping.mk.sizeOf_spec, mk.sizeOf_spec]
    omega
  | leaf => simp at h
  | byPath type entries =>
    simp only [List.mem_flatMap] at h
    obtain ⟨⟨ending, m⟩, he, hm⟩ := h
    have hf := List.sizeOf_lt_of_mem hm
    have hentry := List.sizeOf_lt_of_mem he
    cases m
    simp_all only [TypeMapping.byPath.sizeOf_spec, ObjectMapping.mk.sizeOf_spec,
      Prod.mk.sizeOf_spec, mk.sizeOf_spec]
    omega

theorem mem_of_longestEnding {path : List String}
    {entries : List (List String × ObjectMapping φ ρ μ)}
    {e : List String × ObjectMapping φ ρ μ} (h : longestEnding path entries = some e) :
    e ∈ entries := by
  suffices key : ∀ (entries : List (List String × ObjectMapping φ ρ μ)) best,
      entries.foldl (fun best entry =>
        if entry.1.isSuffixOf path && best.all fun b => b.1.length < entry.1.length then
          some entry
        else best) best = some e → best = some e ∨ e ∈ entries by
    rcases key entries none h with h | h
    · exact absurd h (by simp)
    · exact h
  intro entries
  induction entries with
  | nil => intro best h; exact .inl h
  | cons entry rest ih =>
    intro best h
    rw [List.foldl_cons] at h
    rcases ih _ h with h | h
    · split at h
      · exact .inr (by simp_all)
      · exact .inl h
    · exact .inr (List.mem_cons_of_mem _ h)

theorem mem_allFields_of_objectMapping? {r : Registry φ ρ μ} {path : List String} {type : String}
    {m : ObjectMapping φ ρ μ} (h : r.objectMapping? path type = some m)
    {f : FieldMapping φ ρ μ} (hf : f ∈ m.fields) : f ∈ r.allFields := by
  unfold objectMapping? at h
  split at h
  · rename_i heq
    have ht := List.mem_of_find?_eq_some heq
    cases h
    exact List.mem_flatMap.2 ⟨_, ht, hf⟩
  · rename_i heq
    have ht := List.mem_of_find?_eq_some heq
    obtain ⟨e, he, rfl⟩ := Option.map_eq_some_iff.1 h
    exact List.mem_flatMap.2 ⟨_, ht, List.mem_flatMap.2 ⟨e, mem_of_longestEnding he, hf⟩⟩
  · exact absurd h (by simp)
  · exact absurd h (by simp)

end Registry

namespace Schema

/-- What a walk finds passes its test somewhere. -/
theorem exists_of_search {α : Type} {s : Schema} {test : String → Option α} {type : String}
    {a : α} (h : s.search test type = some a) : ∃ t, test t = some a :=
  search_induction (P := fun _ => ∃ t, test t = some a) (fun t ht => ⟨t, ht⟩)
    (fun _ _ _ hfound => hfound) h

end Schema

namespace Registry

variable {φ ρ μ : Type} [SourceField φ]

theorem mem_allFields_of_fieldMapping? {r : Registry φ ρ μ} {path : List String}
    {type name : String} {f : FieldMapping φ ρ μ} (h : r.fieldMapping? path type name = some f) :
    f ∈ r.allFields := by
  obtain ⟨t, ht⟩ := Schema.exists_of_search h
  obtain ⟨m, hm, hf⟩ := Option.bind_eq_some_iff.1 ht
  exact mem_allFields_of_objectMapping? hm (List.mem_of_find?_eq_some hf)

theorem name_of_fieldMapping? {r : Registry φ ρ μ} {path : List String} {type name : String}
    {f : FieldMapping φ ρ μ} (h : r.fieldMapping? path type name = some f) : f.name = name := by
  obtain ⟨t, ht⟩ := Schema.exists_of_search h
  obtain ⟨m, -, hf⟩ := Option.bind_eq_some_iff.1 ht
  have hname : decide (f.name = name) = true :=
    List.find?_some (p := fun g : FieldMapping φ ρ μ => decide (g.name = name)) hf
  exact of_decide_eq_true hname

theorem sizeOf_target_lt [SizeOf φ] [SizeOf ρ] [SizeOf μ] {r : Registry φ ρ μ} {path : List String}
    {type field : String} {d : Delegate μ} (h : r.resolve path type field = .delegated d) :
    sizeOf d.target < sizeOf r := by
  unfold resolve at h
  split at h
  · rename_i d' hd
    cases h
    have := sizeOf_lt_of_mem_allFields (mem_allFields_of_fieldMapping? hd)
    cases d
    simp_all only [FieldMapping.delegate.sizeOf_spec, Delegate.mk.sizeOf_spec]
    omega
  all_goals exact absurd h (by simp)

end Registry

namespace Mapping

/-- The target of a delegated field is a part of the mapping. -/
theorem sizeOf_target_lt {m : Mapping} {path : List String} {type field : String}
    {d : Delegate Mapping} (h : m.resolve path type field = .delegated d) :
    sizeOf d.target < sizeOf m := by
  cases m with
  | documents r =>
    have := Registry.sizeOf_target_lt (r := r) h
    simp only [documents.sizeOf_spec]
    omega
  | tables r =>
    have := Registry.sizeOf_target_lt (r := r) h
    simp only [tables.sizeOf_spec]
    omega

end Mapping

end MappedQuery
