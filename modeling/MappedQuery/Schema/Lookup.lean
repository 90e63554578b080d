import MappedQuery.Schema.Basic

/-!
# Looking up through interfaces

What a type does not declare itself is looked for on its interfaces, depth first and in
declaration order. Where interfaces lead back to themselves that walk may have no end.
`Schema.ascend` is the walk cut off after a number of steps; a `Walk` that was cut off is told
apart from one that found nothing, and the walk has an end if some number of steps is enough for
it. A walk that passes no type twice ends within as many steps as there are types, so it is only
beyond these that `Schema.climb` tries more and more of them, without a bound. Fields, subtypes and
the types that an abstract type stands for are all found by it.
-/
namespace MappedQuery

/-- How a search ends that is cut off after a number of steps. -/
inductive Walk (α : Type) where
  | found (a : α)
  | absent
  | unfinished
deriving DecidableEq, Repr

namespace Walk

/-- What was found, nothing if the search was cut off. -/
def toOption : Walk α → Option α
  | found a => some a
  | absent => none
  | unfinished => none

/-- The first item whose own search does not end empty-handed. -/
def first (search : ι → Walk α) : List ι → Walk α
  | [] => absent
  | i :: rest =>
    match search i with
    | absent => first search rest
    | ended => ended

section First

variable {ι α : Type} {search : ι → Walk α}

theorem exists_of_first : ∀ {l : List ι} {a : α}, first search l = found a →
    ∃ i ∈ l, search i = found a
  | [], _, h => by cases h
  | i :: rest, a, h => by
    unfold first at h
    split at h
    · obtain ⟨j, hj, hfound⟩ := exists_of_first h
      exact ⟨j, List.mem_cons_of_mem i hj, hfound⟩
    · exact ⟨i, List.mem_cons_self, h⟩

theorem first_eq_absent : ∀ {l : List ι}, first search l = absent →
    ∀ i ∈ l, search i = absent
  | [], _ => fun _ hi => absurd hi List.not_mem_nil
  | i :: rest, h => by
    unfold first at h
    split at h
    · rename_i hi
      exact List.forall_mem_cons.2 ⟨hi, first_eq_absent h⟩
    · rename_i hi
      exact absurd h hi

/-- A search that comes after some which find nothing is made, and is not cut off if all of them
together are not. -/
theorem ne_unfinished_of_first {i : ι} {after : List ι} : ∀ {before : List ι},
    (∀ b ∈ before, search b ≠ unfinished → search b = absent) →
      first search (before ++ i :: after) ≠ unfinished → search i ≠ unfinished
  | [], _, h => by
    intro hi
    rw [List.nil_append, first, hi] at h
    exact h rfl
  | b :: before, hbefore, h => by
    rw [List.cons_append] at h
    unfold first at h
    split at h
    · exact ne_unfinished_of_first (fun c hc => hbefore c (List.mem_cons_of_mem b hc)) h
    · rename_i hb
      exact absurd (hbefore b List.mem_cons_self h) hb

/-- Searching item by item is not cut off if no search is that comes after such as found
nothing. -/
theorem first_ne_unfinished : ∀ {l : List ι},
    (∀ before i after, l = before ++ i :: after → (∀ b ∈ before, search b = absent) →
      search i ≠ unfinished) → first search l ≠ unfinished
  | [], _ => nofun
  | j :: rest, h => by
    unfold first
    split
    · rename_i hj
      refine first_ne_unfinished fun before i after hsplit hbefore =>
        h (j :: before) i after (by rw [hsplit]; rfl) fun b hb => ?_
      rcases List.mem_cons.1 hb with rfl | hb
      · exact hj
      · exact hbefore b hb
    · exact h [] j rest rfl fun b hb => absurd hb List.not_mem_nil

end First

end Walk

namespace Schema

/-- The first of a type and its interfaces, depth first, that passes `test`, if a number of steps
is enough to tell. -/
def ascend (s : Schema) (test : String → Option α) : Nat → String → Walk α
  | 0, _ => .unfinished
  | steps + 1, type =>
    match test type with
    | some a => .found a
    | none => Walk.first (ascend s test steps) (s.interfaces type)

/-- What the walk from a type comes to with some number of steps. -/
structure Ascent {α : Type} (s : Schema) (test : String → Option α) (type : String) where
  walk : Walk α
  eq_walk : ∃ steps, s.ascend test steps type = walk

instance {α : Type} (s : Schema) (test : String → Option α) (type : String) :
    Nonempty (s.Ascent test type) :=
  ⟨⟨_, 0, rfl⟩⟩

/-- The walk from a type, tried with more and more steps until it is not cut off. Where the walk
has no end, neither have the tries. -/
def climb {α : Type} (s : Schema) (test : String → Option α) (type : String) :
    Nat → s.Ascent test type :=
  repeatM (m := Id) fun steps =>
    match h : s.ascend test steps type with
    | .unfinished => .inl ((steps + 1) * (steps + 1))
    | ended => .inr ⟨ended, steps, h⟩

/-- Steps enough for every walk that passes no type twice. -/
def steps (s : Schema) : Nat := s.types.length + 1

/-- The first of a type and its interfaces that passes `test`. -/
def search {α : Type} (s : Schema) (test : String → Option α) (type : String) : Option α :=
  match s.ascend test s.steps type with
  | .unfinished => (s.climb test type s.steps).walk.toOption
  | ended => ended.toOption

/-- A field that a type declares itself. -/
def ownField? (s : Schema) (name : String) (type : String) : Option FieldDefinition :=
  (s.find? type).bind fun d => d.fields.find? (·.name = name)

/-- A field of an object type or an interface, its own or one of its interfaces'. -/
def field? (s : Schema) (type name : String) : Option FieldDefinition :=
  s.search (s.ownField? name) type

/-- Whether one type is another, implements it, directly or not, or is a member of it. -/
def isSubtype (s : Schema) (sub sup : String) : Bool :=
  let test (type : String) : Option Unit :=
    if type = sup || (s.unionMembers sup).contains type then some () else none
  (s.search test sub).isSome

/-- The object types that a position of the type can hold, in declaration order. -/
def possibleTypes (s : Schema) (name : String) : List String :=
  match s.find? name with
  | some (.object o) => [o.name]
  | some (.union _ members) => members
  | some (.interface _) =>
    (s.types.filter fun d => d.isObject && s.isSubtype d.name name).map (·.name)
  | _ => []

/-- A search tells what the walk comes to with some number of steps. -/
theorem exists_ascend_of_search {α : Type} (s : Schema) (test : String → Option α)
    (type : String) : ∃ n, s.search test type = (s.ascend test n type).toOption := by
  unfold search
  split
  · obtain ⟨n, hn⟩ := (s.climb test type s.steps).eq_walk
    exact ⟨n, congrArg Walk.toOption hn.symm⟩
  · exact ⟨s.steps, rfl⟩

/-- What a walk finds passes on the type itself or above it, on an interface. -/
theorem search_induction {α : Type} {s : Schema} {test : String → Option α} {P : String → Prop}
    {a : α} (passes : ∀ t, test t = some a → P t)
    (up : ∀ t, ∀ i ∈ s.interfaces t, P i → P t) {type : String}
    (h : s.search test type = some a) : P type := by
  obtain ⟨n, hn⟩ := s.exists_ascend_of_search test type
  rw [h] at hn
  clear h
  induction n generalizing type with
  | zero => cases hn
  | succ n ih =>
    unfold ascend at hn
    split at hn
    · rename_i hpasses
      cases hn
      exact passes type hpasses
    · cases hfirst : Walk.first (s.ascend test n) (s.interfaces type) with
      | found b =>
        rw [hfirst] at hn
        cases hn
        obtain ⟨i, hi, hfound⟩ := Walk.exists_of_first hfirst
        exact up type i hi (ih (by rw [hfound]; rfl))
      | absent | unfinished =>
        rw [hfirst] at hn
        cases hn

/-- Without interfaces a type is looked up alone. -/
theorem search_of_no_interfaces {α : Type} {s : Schema} {type : String}
    (h : s.interfaces type = []) (test : String → Option α) : s.search test type = test type := by
  rw [search, steps, ascend, h]
  cases test type <;> rfl

end Schema

end MappedQuery
