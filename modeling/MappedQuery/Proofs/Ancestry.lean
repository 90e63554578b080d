import MappedQuery.Proofs.EndingWalks

/-!
# Interfaces without cycles

Where no type leads back to itself through its interfaces, a search passes no type twice and so
ends within its steps. It then finds something if and only if a type that can be reached passes
the test, and being a subtype is a partial order above which there are only unions.
-/
namespace MappedQuery

namespace Schema

variable {s : Schema} {α : Type} {test : String → Option α}

/-- A type is another, or leads to it through interfaces. -/
def Reaches (s : Schema) : String → String → Prop := Relation.ReflTransGen s.Implements

/-- No type leads back to itself through its interfaces. -/
def Acyclic (s : Schema) : Prop := ∀ t, ¬ Relation.TransGen s.Implements t t

/-- Where no type leads back to itself, every walk has an end. -/
theorem Acyclic.ends (hs : s.Acyclic) (test : String → Option α) (t : String) : s.Ends test t :=
  ends_iff_neverReturns.2 fun u _ hloop =>
    hs u (Relation.TransGen.mono (fun _ _ => GoesOn.implements) _ _ hloop)

/-- What is found is found on a type that is reached. -/
theorem reaches_of_search {t : String} {a : α} (h : s.search test t = some a) :
    ∃ u, s.Reaches t u ∧ test u = some a := by
  refine search_induction (P := fun t => ∃ u, s.Reaches t u ∧ test u = some a)
    (fun t ht => ⟨t, .refl, ht⟩) (fun t i hi hfound => ?_) h
  obtain ⟨u, hu, htest⟩ := hfound
  exact ⟨u, hu.head hi, htest⟩

/-- Where nothing is found, no type that is reached passes. -/
theorem eq_none_of_tells {t u : String} (h : s.Tells test t none) (hu : s.Reaches t u) :
    test u = none := by
  induction hu using Relation.ReflTransGen.head_induction_on with
  | refl => exact (not_passes_of_tells h).1
  | head hi _ ih => exact ih ((not_passes_of_tells h).2 _ hi)

/-- Where a type that is reached passes, something is found. -/
theorem Acyclic.isSome_search (hs : s.Acyclic) {t u : String} (hu : s.Reaches t u)
    (htest : (test u).isSome = true) : (s.search test t).isSome = true := by
  have htells := (hs.ends test t).tells_search
  cases hfound : s.search test t with
  | some a => rfl
  | none =>
    rw [hfound] at htells
    rw [eq_none_of_tells htells hu] at htest
    cases htest

/-- A type passes before its interfaces do. -/
theorem search_self {t : String} {a : α} (h : test t = some a) : s.search test t = some a := by
  rw [search, steps, ascend, h]
  rfl

/-- A subtype of a type reaches it or a member of it. -/
theorem Acyclic.isSubtype_iff (hs : s.Acyclic) {a b : String} : s.isSubtype a b = true ↔
    ∃ u, s.Reaches a u ∧ (u = b ∨ u ∈ s.unionMembers b) := by
  constructor
  · intro h
    obtain ⟨_, hfound⟩ := Option.isSome_iff_exists.1 h
    obtain ⟨u, hu, htest⟩ := reaches_of_search hfound
    refine ⟨u, hu, ?_⟩
    split at htest
    · rename_i hpasses
      simpa using hpasses
    · cases htest
  · rintro ⟨u, hu, hpasses⟩
    refine hs.isSome_search hu ?_
    rw [if_pos (by simpa using hpasses)]
    rfl

theorem Acyclic.isSubtype_of_reaches (hs : s.Acyclic) {a b : String} (h : s.Reaches a b) :
    s.isSubtype a b = true :=
  hs.isSubtype_iff.2 ⟨b, h, .inl rfl⟩

/-- Where implemented types implement nothing themselves, no type leads back to itself. -/
theorem acyclic_of_types (h : ∀ d ∈ s.types, ∀ b ∈ d.interfaces, s.interfaces b = []) :
    s.Acyclic := by
  intro t hloop
  obtain ⟨b, hb, hrest⟩ := Relation.TransGen.head'_iff.1 hloop
  have hnone : s.interfaces b = [] := by
    unfold Implements interfaces at hb
    cases hfind : s.find? t with
    | none =>
      rw [hfind] at hb
      cases hb
    | some d =>
      rw [hfind] at hb
      exact h d (List.mem_of_find?_eq_some hfind) b hb
  have hstop {c : String} : ¬ s.Implements b c := by
    rw [Implements, hnone]
    exact List.not_mem_nil
  rcases Relation.ReflTransGen.cases_head hrest with rfl | ⟨c, hc, -⟩
  · exact hstop hb
  · exact hstop hc

/-- Only interfaces are implemented. -/
def ImplementsInterfaces (s : Schema) : Prop :=
  ∀ a b, s.Implements a b → ∃ d, s.find? b = some (.interface d)

theorem implementsInterfaces_of_types
    (h : ∀ d ∈ s.types, ∀ b ∈ d.interfaces, ∃ i, s.find? b = some (.interface i)) :
    s.ImplementsInterfaces := by
  intro a b hab
  unfold Implements interfaces at hab
  cases hfind : s.find? a with
  | none =>
    rw [hfind] at hab
    cases hab
  | some d =>
    rw [hfind] at hab
    exact h d (List.mem_of_find?_eq_some hfind) b hab

/-- Objects are of one type that is not abstract. -/
theorem ImplementsInterfaces.eq_of_isSubtype {s : Schema} (hs : s.ImplementsInterfaces)
    {t type : String} (htype : s.isAbstract type = false) (h : s.isSubtype t type = true) :
    t = type := by
  obtain ⟨_, hfound⟩ := Option.isSome_iff_exists.1 h
  obtain ⟨u, hu, htest⟩ := reaches_of_search hfound
  have hmembers : s.unionMembers type = [] := by
    rw [unionMembers]
    rw [isAbstract] at htype
    cases hfind : s.find? type with
    | none => rfl
    | some d =>
      rw [hfind] at htype
      cases d <;> first | rfl | cases htype
  obtain rfl : u = type := by
    rw [hmembers] at htest
    split at htest
    · rename_i hpasses
      simpa using hpasses
    · cases htest
  rcases Relation.ReflTransGen.cases_tail hu with rfl | ⟨b, -, hb⟩
  · rfl
  · obtain ⟨d, hd⟩ := hs b u hb
    rw [isAbstract, hd] at htype
    cases htype

/-- A field is declared by a type that is reached. -/
theorem reaches_of_field? {t name : String} {f : FieldDefinition} (h : s.field? t name = some f) :
    ∃ u, s.Reaches t u ∧ s.ownField? name u = some f :=
  reaches_of_search h

end Schema

end MappedQuery
