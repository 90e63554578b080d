import MappedQuery.Proofs.EndingPlans
import MappedQuery.Proofs.RequiredSiblings

/-!
# Requirements and the end of planning

Planning looks fields up through interfaces and follows what computed fields require. The first has
an end where no type leads back to itself, the second where no field does. Validation asks of what
is required that it is mapped, and of nothing else, so a mapping without an error may have a field
that requires itself: planning a query of it has no end.
-/
namespace MappedQuery

open Sql Sql.Planning

namespace Sql.Plan

variable {r : TableRegistry}

/-- Where no field leads back to itself by what it requires, no walk returns. -/
theorem neverReturns_of_requirements {p : Place} {test : String → Option Unit}
    (h : ∀ name, ¬ Relation.TransGen (fun a b => b ∈ requirements r p a) name name)
    (name : String) : Walk.NeverReturns (requirements r p) test name := fun u _ hloop =>
  h u (Relation.TransGen.mono (fun _ _ => Walk.GoesOn.mem_next) _ _ hloop)

/-- Planning a root field has an end, over interfaces that do not lead back to themselves, if and
only if the walks over what is required by the fields that it comes to come to no field a second
time; it is enough that no field leads back to itself. A plan or an error is what it comes to then,
with as many steps as there are fields, and one more. -/
theorem planning_ends_iff (hacyclic : r.schema.Acyclic) (field : String) (type : TypeRef)
    (child : Query) :
    (∀ l : LookUp TableField Unit Mapping, l.schema = r.schema → l.EveryWalk Schema.Ends) ∧
    ((∃ steps, isCutOff (buildWithin steps r field type child) = false) ↔
      ∀ steps p name e, ComesTo r steps field type child p name e →
        Walk.NeverReturns (requirements r p) (stops? r p e) name) ∧
    ((∃ steps, isCutOff (buildWithin steps r field type child) = false) →
      isCutOff (build r field type child) = false ∧
        build r field type child = buildWithin (r.allFields.length + 1) r field type child) ∧
    ((∀ p name, ¬ Relation.TransGen (fun a b => b ∈ requirements r p a) name name) →
      ∃ steps, isCutOff (buildWithin steps r field type child) = false) := by
  have ⟨hiff, hwithin⟩ := @buildWithin_ends_iff r field type child
  refine ⟨fun l hschema => ?_, hiff, fun hends => ?_, fun hloops => ?_⟩
  · refine l.everyWalk_true.of_forall fun test t _ => ?_
    rw [hschema]
    exact hacyclic.ends test t
  · have hbuild := build_eq_buildWithin r field type child
    exact ⟨hbuild ▸ hwithin hends, hbuild⟩
  · exact hiff.2 fun _ p name _ _ => neverReturns_of_requirements (hloops p) name

end Sql.Plan

namespace Orbits

/-- Planets have names and labels. -/
def schema : Schema := .ofTypes
  [.object ⟨"Query", [⟨"planets", [], .list (.named "Planet")⟩], []⟩,
    .object ⟨"Planet", [⟨"name", [], .named "String"⟩, ⟨"label", [], .named "String"⟩], []⟩]
  "Query"

/-- The labels are all the same and require some siblings. -/
def registry (required : List String) : TableRegistry where
  schema := schema
  types :=
    [.object ⟨"Query", [.root "planets" ()]⟩,
      .object ⟨"Planet", [.source (.column "name" ⟨"planet", "name"⟩ true false),
        .computed ⟨"label", required, .const (.string "x")⟩ false]⟩]
  elaborators := []

theorem acyclic : schema.Acyclic := Schema.acyclic_of_types (by decide)

/-- Only labels require anything. -/
theorem eq_of_mem_requirements {required : List String} {p : Place} {a b : String}
    (h : b ∈ requirements (registry required) p a) : a = "label" ∧ b ∈ required := by
  obtain ⟨f, hf, rfl, hb⟩ := exists_of_mem_requirements h
  have hcases : f = .root "planets" () ∨
      f = .source (.column "name" ⟨"planet", "name"⟩ true false) ∨
      f = .computed ⟨"label", required, .const (.string "x")⟩ false := by
    simpa [Registry.allFields, registry] using hf
  rcases hcases with rfl | rfl | rfl
  · cases hb
  · cases hb
  · exact ⟨rfl, hb⟩

/-- Labels that require names can be planned. -/
theorem labels_of_names_are_planned :
    schema.Acyclic ∧
      isCutOff (Plan.build (registry ["name"]) "planets" (.list (.named "Planet"))
        (.field "label")) = false := by
  obtain ⟨-, -, hends, hloops⟩ := Plan.planning_ends_iff (r := registry ["name"]) acyclic "planets"
    (.list (.named "Planet")) (.field "label")
  refine ⟨acyclic, (hends (hloops fun p name hloop => ?_)).1⟩
  obtain ⟨other, hfirst, hrest⟩ := Relation.TransGen.head'_iff.1 hloop
  obtain ⟨rfl, hother⟩ := eq_of_mem_requirements hfirst
  obtain rfl := List.mem_singleton.1 hother
  rcases Relation.ReflTransGen.cases_head hrest with heq | ⟨_, hnext, -⟩
  · exact absurd heq (by decide)
  · exact absurd (eq_of_mem_requirements hnext).1 (by decide)

theorem exists_starts (required : List String) :
    ∃ d, Plan.Starts (registry required) "planets" (.list (.named "Planet"))
      ⟨0, ["planets"], "Planet"⟩ d :=
  ⟨_, _, _, _, rfl, rfl, rfl⟩

/-- The mapping with labels that require labels validates, and planning a label has no end. -/
theorem label_of_label_has_no_end :
    schema.Acyclic ∧ (registry ["label"]).Validates ∧
      ∀ steps, isCutOff (Plan.buildWithin steps (registry ["label"]) "planets"
        (.list (.named "Planet")) (.field "label")) = true := by
  refine ⟨acyclic, ?_, fun steps => ?_⟩
  · have hnone : (registry ["label"]).validate = [] := by decide +kernel
    intro finding hfinding
    rw [hnone] at hfinding
    cases hfinding
  · by_contra hends
    obtain ⟨d, hstarts⟩ := exists_starts ["label"]
    have hreturns := Plan.buildWithin_ends_iff.1.1 ⟨steps, Bool.eq_false_iff.2 hends⟩ steps
      ⟨0, ["planets"], "Planet"⟩ "label" d ⟨_, d, hstarts, .field (by decide)⟩
    exact hreturns "label" .refl (.single ⟨stops?_of_computed rfl, [], [], rfl, nofun⟩)

end Orbits

end MappedQuery
