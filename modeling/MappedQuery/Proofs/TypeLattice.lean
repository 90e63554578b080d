import MappedQuery.Cursor.Basic
import MappedQuery.Proofs.Ancestry

/-!
# The order of types

A type stands directly below the interfaces that it implements and below the unions that it is a
member of. In a schema where only interfaces are implemented, unions have object types as members
and no type leads back to itself, subtypes are what stands below in any number of steps, and the
types that a position of an abstract type can hold are its subtypes among the object types.
-/
namespace MappedQuery

namespace Schema

variable {s : Schema} {a b c t : String}

/-- One type stands directly below another: it implements it or is a member of it. -/
def StandsBelow (s : Schema) (a b : String) : Prop := s.Implements a b ∨ a ∈ s.unionMembers b

/-- The members of unions are object types. -/
def UnitesObjects (s : Schema) : Prop :=
  ∀ a b, a ∈ s.unionMembers b → ∃ o, s.find? a = some (.object o)

/-- Types are layered: objects are below interfaces and unions, and interfaces below interfaces
without a cycle. -/
structure Layered (s : Schema) : Prop where
  acyclic : s.Acyclic
  implemented : s.ImplementsInterfaces
  united : s.UnitesObjects

/-- Only unions have members. -/
theorem exists_union_of_mem (h : a ∈ s.unionMembers b) :
    ∃ name members, s.find? b = some (.union name members) := by
  unfold unionMembers at h
  cases hfind : s.find? b with
  | none =>
    rw [hfind] at h
    cases h
  | some d =>
    rw [hfind] at h
    cases d with
    | union name members => exact ⟨name, members, rfl⟩
    | scalar _ | object _ | interface _ | enum _ _ | input _ => cases h

/-- Unions implement nothing. -/
theorem not_implements_of_mem (h : a ∈ s.unionMembers b) : ¬ s.Implements b c := by
  obtain ⟨name, members, hfind⟩ := exists_union_of_mem h
  unfold Implements interfaces
  rw [hfind]
  exact List.not_mem_nil

/-- Objects have no members. -/
theorem not_mem_of_object {o : ObjectDefinition} (h : s.find? b = some (.object o)) :
    a ∉ s.unionMembers b := by
  intro hmem
  obtain ⟨name, members, hfind⟩ := exists_union_of_mem hmem
  rw [h] at hfind
  cases hfind

/-- What is reached from another type is an interface. -/
theorem ImplementsInterfaces.interface_of_reaches (hs : s.ImplementsInterfaces)
    (h : s.Reaches a b) (hne : a ≠ b) : ∃ d, s.find? b = some (.interface d) := by
  rcases Relation.ReflTransGen.cases_tail h with rfl | ⟨i, -, hi⟩
  · exact absurd rfl hne
  · exact hs i b hi

/-- No steps lead to an object type. -/
theorem ImplementsInterfaces.eq_of_reaches (hs : s.ImplementsInterfaces) {o : ObjectDefinition}
    (hb : s.find? b = some (.object o)) (h : s.Reaches a b) : a = b := by
  by_contra hne
  obtain ⟨d, hd⟩ := hs.interface_of_reaches h hne
  rw [hb] at hd
  cases hd

/-- Ranks that fall from every type to its interfaces leave no room for a cycle. -/
theorem acyclic_of_rank (rank : String → Nat)
    (h : ∀ d ∈ s.types, ∀ b ∈ d.interfaces, rank b < rank d.name) : s.Acyclic := by
  have hstep {a b : String} (hab : s.Implements a b) : rank b < rank a := by
    unfold Implements interfaces at hab
    cases hfind : s.find? a with
    | none =>
      rw [hfind] at hab
      cases hab
    | some d =>
      rw [hfind] at hab
      have hrank := h d (List.mem_of_find?_eq_some hfind) b hab
      rwa [name_of_find? hfind] at hrank
  have hwalk {a b : String} (hab : Relation.TransGen s.Implements a b) : rank b < rank a := by
    induction hab with
    | single hab => exact hstep hab
    | tail _ hbc ih => exact (hstep hbc).trans ih
  exact fun t hloop => Nat.lt_irrefl _ (hwalk hloop)

/-- The definition of a type tells its kind. -/
theorem exists_of_kind {kind : String} (h : (s.find? a).map (·.kind) = some kind) :
    ∃ d, s.find? a = some d ∧ d.kind = kind :=
  Option.map_eq_some_iff.1 h

/-- Whether a schema is layered can be read off its definitions and the ranks of its types. -/
theorem layered_of_types (rank : String → Nat)
    (h : ∀ d ∈ s.types,
      (∀ b ∈ d.interfaces, rank b < rank d.name ∧
        (s.find? b).map (·.kind) = some "INTERFACE") ∧
      ∀ a ∈ d.members, (s.find? a).map (·.kind) = some "OBJECT") : s.Layered where
  acyclic := acyclic_of_rank rank fun d hd b hb => ((h d hd).1 b hb).1
  implemented := implementsInterfaces_of_types fun d hd b hb => by
    obtain ⟨e, he, hkind⟩ := exists_of_kind ((h d hd).1 b hb).2
    cases e with
    | interface i => exact ⟨i, he⟩
    | scalar _ | object _ | union _ _ | enum _ _ | input _ => simp [TypeDefinition.kind] at hkind
  united a b hmem := by
    obtain ⟨name, members, hfind⟩ := exists_union_of_mem hmem
    unfold unionMembers at hmem
    rw [hfind] at hmem
    obtain ⟨e, he, hkind⟩ := exists_of_kind ((h _ (List.mem_of_find?_eq_some hfind)).2 a hmem)
    cases e with
    | object o => exact ⟨o, he⟩
    | scalar _ | interface _ | union _ _ | enum _ _ | input _ => simp [TypeDefinition.kind] at hkind

namespace Layered

variable (hs : s.Layered)

include hs

/-- A subtype leads to the type through interfaces, or is a member of it. -/
theorem isSubtype_iff : s.isSubtype a b = true ↔ s.Reaches a b ∨ a ∈ s.unionMembers b := by
  rw [hs.acyclic.isSubtype_iff]
  constructor
  · rintro ⟨u, hu, rfl | hmem⟩
    · exact .inl hu
    · obtain ⟨o, ho⟩ := hs.united u b hmem
      rw [hs.implemented.eq_of_reaches ho hu]
      exact .inr hmem
  · rintro (h | h)
    · exact ⟨b, h, .inl rfl⟩
    · exact ⟨a, .refl, .inr h⟩

/-- One step up from a type leads to what its subtypes are below. -/
theorem isSubtype_step (h : s.isSubtype a b = true) (hstep : s.StandsBelow b c) :
    s.isSubtype a c = true := by
  rw [hs.isSubtype_iff] at h ⊢
  rcases h with hreaches | hmem
  · rcases hstep with himplements | hmem
    · exact .inl (hreaches.tail himplements)
    · obtain ⟨o, ho⟩ := hs.united b c hmem
      rw [hs.implemented.eq_of_reaches ho hreaches]
      exact .inr hmem
  · -- above a union there is nothing
    rcases hstep with himplements | habove
    · exact absurd himplements (not_implements_of_mem hmem)
    · obtain ⟨o, ho⟩ := hs.united b c habove
      exact absurd hmem (not_mem_of_object ho)

theorem isSubtype_iff_below :
    s.isSubtype a b = true ↔ Relation.ReflTransGen s.StandsBelow a b := by
  constructor
  · intro h
    rcases hs.isSubtype_iff.1 h with hreaches | hmem
    · exact Relation.ReflTransGen.mono (fun _ _ => Or.inl) _ _ hreaches
    · exact .single (.inr hmem)
  · intro h
    induction h with
    | refl => exact hs.isSubtype_iff.2 (.inl .refl)
    | tail _ hstep ih => exact hs.isSubtype_step ih hstep

/-- What an abstract type can be are the object types below it. -/
theorem mem_possibleTypes_iff {d : TypeDefinition} {o : ObjectDefinition}
    (ha : s.find? a = some d) (habstract : d.isAbstract = true)
    (ht : s.find? t = some (.object o)) :
    t ∈ s.possibleTypes a ↔ s.isSubtype t a = true := by
  cases d with
  | scalar _ | object _ | enum _ _ | input _ => cases habstract
  | interface i =>
    rw [possibleTypes, ha]
    simp only [List.mem_map, List.mem_filter, Bool.and_eq_true]
    constructor
    · rintro ⟨d, ⟨-, -, hsub⟩, rfl⟩
      exact hsub
    · intro hsub
      have hname : TypeDefinition.name (.object o) = t := name_of_find? ht
      exact ⟨.object o, ⟨List.mem_of_find?_eq_some ht, rfl, hname.symm ▸ hsub⟩, hname⟩
  | union name members =>
    have hmembers : s.unionMembers a = members := by
      rw [unionMembers, ha]
      rfl
    rw [possibleTypes, ha, hs.isSubtype_iff, hmembers]
    constructor
    · exact .inr
    · rintro (hreaches | hmem)
      · -- the object would be the union, or the union would be implemented
        by_cases hta : t = a
        · subst hta
          rw [ha] at ht
          cases ht
        · obtain ⟨i, hi⟩ := hs.implemented.interface_of_reaches hreaches hta
          rw [ha] at hi
          cases hi
      · exact hmem

/-- Being a subtype is to stand below in any number of steps, which is reflexive and transitive.
The types that an abstract type can be are the object types below it, and the objects at a cursor
that a fragment of the abstract type applies to are those of one of them. -/
theorem subtypes_stand_below :
    (∀ a b, s.isSubtype a b = true ↔ Relation.ReflTransGen s.StandsBelow a b) ∧
    (∀ a, s.isSubtype a a = true) ∧
    (∀ a b c, s.isSubtype a b = true → s.isSubtype b c = true → s.isSubtype a c = true) ∧
    ∀ a d t o, s.find? a = some d → d.isAbstract = true → s.find? t = some (.object o) →
      (t ∈ s.possibleTypes a ↔ s.isSubtype t a = true) ∧
      ∀ c : Cursor, c.schema = s → c.concreteType = .ok t →
        (c.narrowsTo a = true ↔ t ∈ s.possibleTypes a) := by
  refine ⟨fun a b => hs.isSubtype_iff_below, fun a => hs.isSubtype_iff_below.2 .refl,
    fun a b c hab hbc => ?_, fun a d t o ha habstract ht => ?_⟩
  · rw [hs.isSubtype_iff_below] at *
    exact hab.trans hbc
  · have hpossible := hs.mem_possibleTypes_iff ha habstract ht
    refine ⟨hpossible, fun c hschema hconcrete => ?_⟩
    rw [hpossible, Cursor.narrowsTo, hconcrete, hschema]

end Layered

end Schema

namespace Settlements

/-- Cities implement an interface that implements another, and are places together with lakes. -/
def schema : Schema := .ofTypes [
  .interface ⟨"Node", [⟨"id", [], .named "ID"⟩], []⟩,
  .interface ⟨"Named", [⟨"id", [], .named "ID"⟩, ⟨"name", [], .named "String"⟩], ["Node"]⟩,
  .object ⟨"City", [⟨"id", [], .named "ID"⟩, ⟨"name", [], .named "String"⟩], ["Named"]⟩,
  .object ⟨"Lake", [⟨"depth", [], .named "Int"⟩], []⟩,
  .union "Place" ["City", "Lake"],
  .object ⟨"Query", [⟨"places", [], .list (.named "Place")⟩], []⟩] "Query"

theorem layered : schema.Layered :=
  Schema.layered_of_types
    (fun name => if name = "City" then 2 else if name = "Named" then 1 else 0) (by decide)

/-- Cities are nodes by two steps, and lakes are places that are no nodes. -/
theorem lakes_are_places : schema.Layered ∧
    schema.isSubtype "City" "Node" = true ∧ "City" ∈ schema.possibleTypes "Node" ∧
    "Lake" ∈ schema.possibleTypes "Place" ∧ "Lake" ∉ schema.possibleTypes "Node" := by
  obtain ⟨hbelow, -, -, hpossible⟩ := layered.subtypes_stand_below
  have hnamed : "Named" ∈ schema.interfaces "City" := by decide
  have hnode : "Node" ∈ schema.interfaces "Named" := by decide
  have hcity : schema.isSubtype "City" "Node" = true :=
    (hbelow "City" "Node").2 (.tail (.single (.inl hnamed)) (.inl hnode))
  refine ⟨layered, hcity, (hpossible "Node" _ "City" _ rfl rfl rfl).1.2 hcity,
    (hpossible "Place" _ "Lake" _ rfl rfl rfl).1.2
      ((hbelow "Lake" "Place").2 (.single (.inr (by decide)))), ?_⟩
  rw [(hpossible "Node" _ "Lake" _ rfl rfl rfl).1]
  decide

end Settlements

end MappedQuery
