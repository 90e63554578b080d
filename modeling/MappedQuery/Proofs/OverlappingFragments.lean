import MappedQuery.Proofs.Ancestry
import MappedQuery.Proofs.ConformingDocuments
import MappedQuery.Request.Elaboration

/-!
# Fragments on overlapping types

A fragment can apply to an object of a type if some object type is a subtype of both the type and
the condition. Elaboration asks instead whether one of the two is a subtype of the other. That is so
if one of them is an object type, but not for two abstract types that only share objects: a fragment
on one of them is left out where the other stands, and reported as one that can never apply.
-/
namespace MappedQuery

namespace Schema

variable {s : Schema} {object type : String}

/-- What an object type is a subtype of is a type of the schema, if only interfaces are
implemented. -/
theorem ImplementsInterfaces.hasType_of_isSubtype (hs : s.ImplementsInterfaces)
    (hobject : s.IsObject object) (h : s.isSubtype object type = true) :
    s.hasType type = true := by
  cases habstract : s.isAbstract type with
  | true =>
    obtain ⟨d, hd, -⟩ := Option.any_eq_true _ _ |>.1 habstract
    rw [hasType, hd]
    rfl
  | false =>
    rw [← hs.eq_of_isSubtype habstract h]
    obtain ⟨d, hd⟩ := hobject
    rw [hasType, hd]
    rfl

end Schema

namespace Query

/-- Of the fragments on types that share an object type with the type that they stand on, those are
left out whose type and condition are both abstract and neither a subtype of the other. All others
are elaborated on their condition, or taken apart if that is the type itself. -/
theorem elaborate_overlapping {m : Mapping} {type condition object : String} {path : List String}
    {child : Query} (hs : m.schema.ImplementsInterfaces) (hobject : m.schema.IsObject object)
    (htype : m.schema.isSubtype object type = true)
    (hcondition : m.schema.isSubtype object condition = true) :
    (narrow condition child).elaborate m type path =
      if condition = type then child.elaborate m type path
      else if m.schema.isAbstract type ∧ m.schema.isAbstract condition ∧
          ¬ m.schema.isSubtype condition type ∧ ¬ m.schema.isSubtype type condition then
        dropped (.elaboration (.neverApplies condition type))
      else (child.elaborate m condition path).map (narrow condition) := by
  have hknown := hs.hasType_of_isSubtype hobject hcondition
  have hcontained : ¬ (m.schema.isAbstract type ∧ m.schema.isAbstract condition) →
      m.schema.isSubtype condition type = true ∨ m.schema.isSubtype type condition = true := by
    intro h
    rcases Decidable.not_and_iff_or_not.1 h with h | h
    · rw [← hs.eq_of_isSubtype (Bool.eq_false_iff.2 h) htype]
      exact .inr hcondition
    · rw [← hs.eq_of_isSubtype (Bool.eq_false_iff.2 h) hcondition]
      exact .inl htype
  rw [elaborate, if_neg (by rw [hknown]; exact Bool.false_ne_true :
    ¬ (!m.schema.hasType condition) = true)]
  refine if_congr Iff.rfl rfl ?_
  by_cases happlies : (m.schema.isSubtype condition type ||
      m.schema.isSubtype type condition) = true
  · rw [if_pos happlies, if_neg]
    rintro ⟨-, -, hdown, hup⟩
    exact (Bool.or_eq_true_iff.1 happlies).elim hdown hup
  · rw [if_neg happlies, if_pos]
    rw [Bool.or_eq_true, not_or] at happlies
    have habstract := not_not.1 fun h => not_or.2 happlies (hcontained h)
    exact ⟨habstract.1, habstract.2, happlies⟩

end Query

namespace Kennel

/-- Dogs, which are animals and workers. -/
def registry : DocumentRegistry where
  schema := Schema.ofTypes [
    .object ⟨"Query", [⟨"pet", [], .named "Animal"⟩], []⟩,
    .interface ⟨"Animal", [⟨"name", [], .named "String"⟩], []⟩,
    .interface ⟨"Worker", [⟨"job", [], .named "String"⟩], []⟩,
    .object ⟨"Dog", [⟨"name", [], .named "String"⟩, ⟨"job", [], .named "String"⟩],
      ["Animal", "Worker"]⟩] "Query"
  types := [.object ⟨"Dog", [.source (.same "name"), .source (.same "job")]⟩]
  elaborators := []

theorem implementsInterfaces : registry.schema.ImplementsInterfaces := by
  refine Schema.implementsInterfaces_of_types fun d hd b hb => ?_
  simp only [registry, Schema.ofTypes, List.mem_append, List.mem_map, List.mem_cons,
    List.not_mem_nil, or_false] at hd
  rcases hd with ⟨_, -, rfl⟩ | rfl | rfl | rfl | rfl
  · cases hb
  · cases hb
  · cases hb
  · cases hb
  · rcases List.mem_pair.1 hb with rfl | rfl <;> exact ⟨_, rfl⟩

/-- The job of a dog can be asked of a dog that works, but not of an animal that works. -/
theorem job_of_animal_is_left_out :
    registry.schema.ImplementsInterfaces ∧ registry.schema.IsObject "Dog" ∧
      registry.schema.isSubtype "Dog" "Animal" = true ∧
      registry.schema.isSubtype "Dog" "Worker" = true ∧
      (Query.narrow "Worker" (.field "job")).elaborate (.documents registry) "Animal" ["pet"] =
        Query.dropped (.elaboration (.neverApplies "Worker" "Animal")) ∧
      (Query.narrow "Worker" (.field "job")).elaborate (.documents registry) "Dog" ["pet"] =
        .success (.narrow "Worker" (.field "job")) := by
  have hobject : registry.schema.IsObject "Dog" := ⟨_, rfl⟩
  have hdog : registry.schema.isSubtype "Dog" "Dog" = true := by rfl
  have hanimal : registry.schema.isSubtype "Dog" "Animal" = true := by rfl
  have hworker : registry.schema.isSubtype "Dog" "Worker" = true := by rfl
  refine ⟨implementsInterfaces, hobject, hanimal, hworker, ?_, ?_⟩
  · rw [Query.elaborate_overlapping (m := .documents registry) implementsInterfaces hobject hanimal
      hworker]
    rfl
  · rw [Query.elaborate_overlapping (m := .documents registry) implementsInterfaces hobject hdog
      hworker]
    rfl

end Kennel

end MappedQuery
