import MappedQuery.Proofs.FollowedWalks

/-!
# Walks through interfaces

A walk from a type goes on to its interfaces. It has an end if and only if it cannot come back to a
type, and then it ends within the steps of the schema, since only the types of the schema have
interfaces. A search answers what its walk tells.
-/
namespace MappedQuery

namespace Schema

variable {α : Type} {s : Schema} {test : String → Option α} {t i : String}

/-- One type implements another directly. -/
def Implements (s : Schema) (a b : String) : Prop := b ∈ s.interfaces a

/-- Only types of the schema have interfaces. -/
theorem mem_names_of_interfaces {a : String} (h : s.interfaces a ≠ []) :
    a ∈ s.types.map (·.name) := by
  unfold interfaces at h
  cases hfind : s.find? a with
  | none =>
    rw [hfind] at h
    exact absurd rfl h
  | some d => exact List.mem_map.2 ⟨d, List.mem_of_find?_eq_some hfind, name_of_find? hfind⟩

/-- The walk from a type has an end: some number of steps is enough for it. -/
def Ends (s : Schema) (test : String → Option α) (t : String) : Prop :=
  ∃ n, s.ascend test n t ≠ .unfinished

/-- The walk from a type has an end, and this is what it has found then. -/
def Tells (s : Schema) (test : String → Option α) (t : String) (found? : Option α) : Prop :=
  ∃ n, s.ascend test n t ≠ .unfinished ∧ (s.ascend test n t).toOption = found?

/-- A walk that stands at a type goes on to one of its interfaces: the type does not pass, and the
walks from the interfaces before find nothing. -/
def GoesOn (s : Schema) (test : String → Option α) (t i : String) : Prop :=
  test t = none ∧ ∃ before after, s.interfaces t = before ++ i :: after ∧
    ∀ b ∈ before, s.Tells test b none

/-- A walk comes to no type that it has come to before. -/
def NeverReturns (s : Schema) (test : String → Option α) (t : String) : Prop :=
  ∀ u, Relation.ReflTransGen (s.GoesOn test) t u → ¬ Relation.TransGen (s.GoesOn test) u u

theorem ascend_eq_follow (n : Nat) (t : String) :
    s.ascend test n t = Walk.follow s.interfaces test n t := by
  induction n generalizing t with
  | zero => rfl
  | succ n ih =>
    rw [ascend, Walk.follow]
    cases test t with
    | some a => rfl
    | none => exact congrArg (Walk.first · (s.interfaces t)) (funext ih)

theorem ends_iff_walk : s.Ends test t ↔ Walk.Ends s.interfaces test t := by
  simp only [Ends, Walk.Ends, ascend_eq_follow]

theorem tells_iff_walk {found? : Option α} :
    s.Tells test t found? ↔ Walk.Tells s.interfaces test t found? := by
  simp only [Tells, Walk.Tells, ascend_eq_follow]

theorem goesOn_eq_walk : s.GoesOn test = Walk.GoesOn s.interfaces test := by
  funext t i
  simp only [GoesOn, Walk.GoesOn, tells_iff_walk]

theorem neverReturns_iff_walk : s.NeverReturns test t ↔ Walk.NeverReturns s.interfaces test t := by
  rw [NeverReturns, Walk.NeverReturns, goesOn_eq_walk]

theorem GoesOn.implements (h : s.GoesOn test t i) : s.Implements t i :=
  Walk.GoesOn.mem_next (goesOn_eq_walk ▸ h)

/-- A walk that finds nothing has been to the interfaces of its type. -/
theorem not_passes_of_tells (h : s.Tells test t none) :
    test t = none ∧ ∀ i, s.Implements t i → s.Tells test i none := by
  obtain ⟨hnone, hinterfaces⟩ := Walk.not_passes_of_tells (tells_iff_walk.1 h)
  exact ⟨hnone, fun i hi => tells_iff_walk.2 (hinterfaces i hi)⟩

theorem Ends.goesOn (h : s.Ends test t) (hi : s.GoesOn test t i) : s.Ends test i :=
  ends_iff_walk.2 ((ends_iff_walk.1 h).goesOn (goesOn_eq_walk ▸ hi))

theorem Ends.neverReturns (h : s.Ends test t) : s.NeverReturns test t :=
  neverReturns_iff_walk.2 (ends_iff_walk.1 h).neverReturns

/-- A walk that comes to new types only ends within the steps of its schema. -/
theorem NeverReturns.ends_within_steps (h : s.NeverReturns test t) :
    s.ascend test s.steps t ≠ .unfinished := by
  have hends := (neverReturns_iff_walk.1 h).ends_within fun _ => mem_names_of_interfaces
  rwa [List.length_map, ← ascend_eq_follow] at hends

/-- A walk has an end if and only if it comes to no type a second time. -/
theorem ends_iff_neverReturns : s.Ends test t ↔ s.NeverReturns test t :=
  ⟨Ends.neverReturns, fun h => ⟨s.steps, h.ends_within_steps⟩⟩

/-- A search answers what its walk tells. -/
theorem search_eq_of_tells {found? : Option α} (h : s.Tells test t found?) :
    s.search test t = found? := by
  obtain ⟨n, hended, rfl⟩ := h
  have hsteps := (ends_iff_neverReturns.1 ⟨n, hended⟩).ends_within_steps
  have hsame : s.ascend test n t = s.ascend test s.steps t := by
    rw [ascend_eq_follow] at hended hsteps ⊢
    rw [ascend_eq_follow]
    exact Walk.follow_eq_of_ended hended hsteps
  rw [hsame]
  unfold search
  cases hwalk : s.ascend test s.steps t with
  | found a | absent => rfl
  | unfinished => exact absurd hwalk hsteps

theorem Ends.tells_search (h : s.Ends test t) : s.Tells test t (s.search test t) := by
  obtain ⟨n, hended⟩ := h
  exact ⟨n, hended, (search_eq_of_tells ⟨n, hended, rfl⟩).symm⟩

end Schema

end MappedQuery
