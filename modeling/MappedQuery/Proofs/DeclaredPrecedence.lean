import MappedQuery.Proofs.RequiredSiblings

/-!
# The precedence of declarations

What a registry finds is the first of its declarations that applies. Of the mappings declared for a
type it is the first one, and of the entries of a mapping by path the first of those whose endings
are the longest that fit. A field is looked for on the types of a walk that goes from a type through
its interfaces, depth first and in the order in which they are declared; where they have no cycles
there is one such walk. At each type the mapping is chosen at the same path, and a type whose
endings do not fit it is passed over.
-/
namespace MappedQuery

/-! ## The first of a list -/

/-- An element is the first one of a list with a property. -/
def FirstWith {α : Type} (p : α → Prop) (l : List α) (a : α) : Prop :=
  p a ∧ ∃ before after, l = before ++ a :: after ∧ ∀ b ∈ before, ¬ p b

section FirstWith

variable {α β : Type} {p : α → Prop} {l : List α} {a b : α}

theorem find?_eq_some_iff_firstWith [DecidablePred p] :
    l.find? (fun a => decide (p a)) = some a ↔ FirstWith p l a := by
  rw [List.find?_eq_some_iff_append, FirstWith, decide_eq_true_iff]
  simp only [Bool.not_eq_true', decide_eq_false_iff_not]

theorem FirstWith.unique (ha : FirstWith p l a) (hb : FirstWith p l b) : a = b := by
  classical
  rw [← find?_eq_some_iff_firstWith] at ha hb
  exact Option.some.inj (ha.symm.trans hb)

theorem findSome?_eq_some_iff_firstWith {f : α → Option β} {b : β} :
    l.findSome? f = some b ↔ ∃ a, FirstWith (fun a => (f a).isSome = true) l a ∧ f a = some b := by
  rw [List.findSome?_eq_some_iff]
  constructor
  · rintro ⟨before, a, after, hl, ha, hbefore⟩
    refine ⟨a, ⟨Option.isSome_iff_exists.2 ⟨b, ha⟩, before, after, hl, fun c hc => ?_⟩, ha⟩
    simp [hbefore c hc]
  · rintro ⟨a, ⟨-, before, after, hl, hbefore⟩, ha⟩
    exact ⟨before, a, after, hl, ha, fun c hc => by simpa using hbefore c hc⟩

end FirstWith

/-! ## Depth first -/

namespace Schema

variable {s : Schema} {t : String} {ts us walk walk' : List String}

/-- A walk visits types in order, and the interfaces of each type before those that come after
it. -/
inductive DepthFirst (s : Schema) : List String → List String → Prop
  | done : DepthFirst s [] []
  | visit {t : String} {rest walk : List String} (h : DepthFirst s (s.interfaces t ++ rest) walk) :
    DepthFirst s (t :: rest) (t :: walk)

theorem DepthFirst.unique (h : s.DepthFirst ts walk) (h' : s.DepthFirst ts walk') :
    walk' = walk := by
  induction h generalizing walk' with
  | done =>
    cases h'
    rfl
  | visit h ih =>
    cases h' with
    | visit h' => rw [ih h']

theorem DepthFirst.append (h : s.DepthFirst ts walk) (h' : s.DepthFirst us walk') :
    s.DepthFirst (ts ++ us) (walk ++ walk') := by
  induction h with
  | done => exact h'
  | visit h ih =>
    rw [List.append_assoc] at ih
    exact .visit ih

/-- Where a search that finds nothing has an end, there is a walk for it to follow. -/
theorem exists_depthFirst_of_ascend {n : Nat}
    (h : ∀ t ∈ ts, s.ascend (fun _ => (none : Option Empty)) n t = .absent) :
    ∃ walk, s.DepthFirst ts walk := by
  -- the steps go down along the interfaces, the types to be visited from one to the next
  induction n generalizing ts with
  | zero =>
    cases ts with
    | nil => exact ⟨[], .done⟩
    | cons t rest => cases h t List.mem_cons_self
  | succ n ih =>
    induction ts with
    | nil => exact ⟨[], .done⟩
    | cons t rest ihrest =>
      obtain ⟨ht, hrest⟩ := List.forall_mem_cons.1 h
      obtain ⟨above, habove⟩ := ih (Walk.first_eq_absent ht)
      obtain ⟨after, hafter⟩ := ihrest hrest
      exact ⟨t :: (above ++ after), .visit (habove.append hafter)⟩

theorem Acyclic.exists_depthFirst (hs : s.Acyclic) (t : String) :
    ∃ walk, s.DepthFirst [t] walk := by
  obtain ⟨n, hn⟩ := hs.ends (fun _ => (none : Option Empty)) t
  refine exists_depthFirst_of_ascend (n := n) fun u hu => ?_
  rw [List.mem_singleton.1 hu]
  cases hwalk : s.ascend (fun _ => (none : Option Empty)) n t with
  | found a => exact a.elim
  | absent => rfl
  | unfinished => exact absurd hwalk hn

section Search

variable {α : Type} {test : String → Option α}

theorem toOption_first {ι : Type} {search : ι → Walk α} {l : List ι}
    (h : ∀ i ∈ l, search i ≠ .unfinished) :
    (Walk.first search l).toOption = l.findSome? fun i => (search i).toOption := by
  induction l with
  | nil => rfl
  | cons i rest ih =>
    obtain ⟨hi, hrest⟩ := List.forall_mem_cons.1 h
    rw [Walk.first, List.findSome?_cons]
    cases hsearch : search i with
    | found a => rfl
    | absent => exact ih hrest
    | unfinished => exact absurd hsearch hi

/-- A type that does not pass is looked up on its interfaces, one after the other. -/
theorem Acyclic.search_eq (hs : s.Acyclic) (test : String → Option α) (t : String) :
    s.search test t = (test t).or ((s.interfaces t).findSome? (s.search test)) := by
  cases htest : test t with
  | some a => exact search_self htest
  | none =>
    have hended (i : String) : s.ascend test s.steps i ≠ .unfinished :=
      (hs.ends test i).neverReturns.ends_within_steps
    have hfirst : s.ascend test (s.steps + 1) t =
        Walk.first (s.ascend test s.steps) (s.interfaces t) := by
      rw [ascend, htest]
    refine search_eq_of_tells ⟨s.steps + 1, ?_, ?_⟩
    · rw [hfirst]
      exact Walk.first_ne_unfinished fun _ i _ _ _ => hended i
    · rw [hfirst, toOption_first fun i _ => hended i, Option.none_or]
      congr 1
      funext i
      exact (search_eq_of_tells ⟨s.steps, hended i, rfl⟩).symm

/-- A search finds the first that passes on the walk. -/
theorem Acyclic.findSome?_search (hs : s.Acyclic) (test : String → Option α)
    (h : s.DepthFirst ts walk) : ts.findSome? (s.search test) = walk.findSome? test := by
  induction h with
  | done => rfl
  | @visit t rest walk h ih =>
    rw [List.findSome?_append] at ih
    rw [List.findSome?_cons, List.findSome?_cons, ← ih, hs.search_eq]
    cases test t with
    | some a => rfl
    | none => cases (s.interfaces t).findSome? (s.search test) <;> rfl

end Search

end Schema

/-! ## Mappings -/

variable {φ ρ μ : Type}

namespace Registry

variable {path : List String} {entries : List (List String × ObjectMapping φ ρ μ)}
  {entry : List String × ObjectMapping φ ρ μ}

/-- An entry fits a path with the longest of the endings that fit. -/
structure FitsBest (path : List String) (entries : List (List String × ObjectMapping φ ρ μ))
    (entry : List String × ObjectMapping φ ρ μ) : Prop where
  fits : entry.1 <:+ path
  longest : ∀ other ∈ entries, other.1 <:+ path → other.1.length ≤ entry.1.length

theorem longestEnding_append (path : List String)
    (entries : List (List String × ObjectMapping φ ρ μ))
    (entry : List String × ObjectMapping φ ρ μ) :
    longestEnding path (entries ++ [entry]) =
      if entry.1.isSuffixOf path &&
          (longestEnding path entries).all fun best => best.1.length < entry.1.length
      then some entry else longestEnding path entries := by
  rw [longestEnding, List.foldl_append]
  rfl

theorem longestEnding_eq_none_iff :
    longestEnding path entries = none ↔ ∀ entry ∈ entries, ¬ entry.1 <:+ path := by
  rw [longestEnding_eq_argmax, List.argmax_eq_none, List.filter_eq_nil_iff]
  simp only [List.isSuffixOf_iff_suffix]

/-- A longer ending than all that fit before it fits best. -/
theorem firstWith_append_longer (hentry : entry.1 <:+ path)
    (hshorter : ∀ other ∈ entries, other.1 <:+ path → other.1.length < entry.1.length) :
    FirstWith (FitsBest path (entries ++ [entry])) (entries ++ [entry]) entry := by
  refine ⟨⟨hentry, fun other hmem hother => ?_⟩, entries, [], rfl, ?_⟩
  · rcases List.mem_append.1 hmem with hmem | hmem
    · exact (hshorter other hmem hother).le
    · rw [List.mem_singleton.1 hmem]
  · intro other hmem hbest
    have hle := hbest.longest entry (List.mem_append_right _ List.mem_cons_self) hentry
    have hlt := hshorter other hmem hbest.fits
    omega

/-- An entry that fits best still does before one that does not fit or is no longer. -/
theorem firstWith_append_other (h : FirstWith (FitsBest path entries) entries entry)
    {last : List String × ObjectMapping φ ρ μ}
    (hlast : last.1 <:+ path → last.1.length ≤ entry.1.length) :
    FirstWith (FitsBest path (entries ++ [last])) (entries ++ [last]) entry := by
  obtain ⟨hbest, before, after, hentries, hbefore⟩ := h
  refine ⟨⟨hbest.fits, fun other hmem hother => ?_⟩, before, after ++ [last], ?_, ?_⟩
  · rcases List.mem_append.1 hmem with hmem | hmem
    · exact hbest.longest other hmem hother
    · obtain rfl := List.mem_singleton.1 hmem
      exact hlast hother
  · rw [hentries, List.append_assoc, List.cons_append]
  · intro other hmem hother
    apply hbefore other hmem
    exact ⟨hother.fits, fun entry hentry => hother.longest entry (List.mem_append_left _ hentry)⟩

/-- The entry that is chosen is the first of those that fit best. -/
theorem firstWith_of_longestEnding (h : longestEnding path entries = some entry) :
    FirstWith (FitsBest path entries) entries entry := by
  -- the choice runs through the entries, so the last one is compared with the choice before it
  induction entries using List.reverseRecOn generalizing entry with
  | nil => cases h
  | append_singleton entries last ih =>
    rw [longestEnding_append] at h
    split at h
    · rename_i hlast
      obtain ⟨hfits, hlonger⟩ := Bool.and_eq_true_iff.1 hlast
      obtain rfl := Option.some.inj h
      apply firstWith_append_longer (List.isSuffixOf_iff_suffix.1 hfits)
      intro other hmem hother
      cases hbest : longestEnding path entries with
      | none => exact absurd hother (longestEnding_eq_none_iff.1 hbest other hmem)
      | some best =>
        rw [hbest] at hlonger
        exact ((ih hbest).1.longest other hmem hother).trans_lt (of_decide_eq_true hlonger)
    · rename_i hlast
      apply firstWith_append_other (ih h)
      intro hfits
      rw [h, List.isSuffixOf_iff_suffix.2 hfits, Bool.true_and] at hlast
      exact Nat.not_lt.1 fun hlt => hlast (decide_eq_true hlt)

theorem longestEnding_eq_some_iff :
    longestEnding path entries = some entry ↔ FirstWith (FitsBest path entries) entries entry := by
  refine ⟨firstWith_of_longestEnding, fun hfirst => ?_⟩
  cases hbest : longestEnding path entries with
  | none =>
    obtain ⟨hfits, before, after, rfl, -⟩ := hfirst
    exact absurd hfits.fits (longestEnding_eq_none_iff.1 hbest entry (by simp))
  | some best => rw [(firstWith_of_longestEnding hbest).unique hfirst]

end Registry

/-- At a path a mapping of a type is an object mapping: itself, or that of its first entry that fits
best. -/
inductive TypeMapping.Offers (path : List String) : TypeMapping φ ρ μ → ObjectMapping φ ρ μ → Prop
  | object (m : ObjectMapping φ ρ μ) : Offers path (.object m) m
  | byPath {type : String} {entries : List (List String × ObjectMapping φ ρ μ)}
    {ending : List String} {m : ObjectMapping φ ρ μ}
    (h : FirstWith (Registry.FitsBest path entries) entries (ending, m)) :
    Offers path (.byPath type entries) m

/-- At a path a mapping of a type is none of its objects: it is one of leaves, or no ending fits. -/
inductive TypeMapping.OffersNothing (path : List String) : TypeMapping φ ρ μ → Prop
  | leaf (type : String) (encode : Encoder) : OffersNothing path (.leaf type encode)
  | byPath {type : String} {entries : List (List String × ObjectMapping φ ρ μ)}
    (h : ∀ entry ∈ entries, ¬ entry.1 <:+ path) : OffersNothing path (.byPath type entries)

namespace Registry

variable {r : Registry φ ρ μ} {path : List String} {type name : String}
  {m : ObjectMapping φ ρ μ} {t : TypeMapping φ ρ μ}

theorem typeMapping?_eq_some_iff :
    r.typeMapping? type = some t ↔ FirstWith (·.type = type) r.types t :=
  find?_eq_some_iff_firstWith

theorem typeMapping?_eq_none_iff :
    r.typeMapping? type = none ↔ ∀ t ∈ r.types, t.type ≠ type := by
  rw [typeMapping?, List.find?_eq_none]
  simp only [decide_eq_true_eq, ne_eq]

theorem objectMapping?_iff_offers (h : r.typeMapping? type = some t) :
    r.objectMapping? path type = some m ↔ t.Offers path m := by
  rw [objectMapping?, h]
  cases t with
  | object m' =>
    constructor
    · rintro ⟨⟩
      exact .object m
    · rintro ⟨⟩
      rfl
  | leaf type' encode =>
    constructor
    · intro h
      cases h
    · intro h
      cases h
  | byPath type' entries =>
    rw [Option.map_eq_some_iff]
    constructor
    · rintro ⟨⟨ending, m'⟩, hentry, rfl⟩
      exact .byPath (longestEnding_eq_some_iff.1 hentry)
    · rintro (_ | hfirst)
      exact ⟨_, longestEnding_eq_some_iff.2 hfirst, rfl⟩

theorem objectMapping?_iff_offersNothing (h : r.typeMapping? type = some t) :
    r.objectMapping? path type = none ↔ t.OffersNothing path := by
  rw [objectMapping?, h]
  cases t with
  | object m =>
    constructor
    · intro h
      cases h
    · intro h
      cases h
  | leaf type' encode => exact ⟨fun _ => .leaf type' encode, fun _ => rfl⟩
  | byPath type' entries =>
    rw [Option.map_eq_none_iff, longestEnding_eq_none_iff]
    constructor
    · exact .byPath
    · rintro (_ | hnone)
      exact hnone

/-- The object mapping of a type is what the first mapping declared for it offers. -/
theorem objectMapping?_eq_some_iff : r.objectMapping? path type = some m ↔
    ∃ t, FirstWith (·.type = type) r.types t ∧ t.Offers path m := by
  constructor
  · intro h
    cases ht : r.typeMapping? type with
    | none =>
      rw [objectMapping?, ht] at h
      cases h
    | some t => exact ⟨t, typeMapping?_eq_some_iff.1 ht, (objectMapping?_iff_offers ht).1 h⟩
  · rintro ⟨t, ht, hoffers⟩
    exact (objectMapping?_iff_offers (typeMapping?_eq_some_iff.2 ht)).2 hoffers

theorem objectMapping?_eq_none_iff : r.objectMapping? path type = none ↔
    (∀ t ∈ r.types, t.type ≠ type) ∨
      ∃ t, FirstWith (·.type = type) r.types t ∧ t.OffersNothing path := by
  rw [← typeMapping?_eq_none_iff]
  constructor
  · intro h
    cases ht : r.typeMapping? type with
    | none => exact .inl rfl
    | some t =>
      exact .inr ⟨t, typeMapping?_eq_some_iff.1 ht, (objectMapping?_iff_offersNothing ht).1 h⟩
  · rintro (hnone | ⟨t, ht, hnothing⟩)
    · rw [objectMapping?, hnone]
    · exact (objectMapping?_iff_offersNothing (typeMapping?_eq_some_iff.2 ht)).2 hnothing

/-! ## Fields -/

section Fields

variable [SourceField φ]

/-- A type maps a field at a path. -/
def Maps (r : Registry φ ρ μ) (path : List String) (name type : String) : Prop :=
  ∃ m, r.objectMapping? path type = some m ∧ ∃ f ∈ m.fields, f.name = name

theorem isSome_ownMapping?_iff :
    (r.ownMapping? path name type).isSome = true ↔ r.Maps path name type := by
  rw [ownMapping?]
  cases hm : r.objectMapping? path type with
  | none => simp [Maps, hm]
  | some m => simp [Maps, hm, ObjectMapping.field?]

theorem ownMapping?_eq_some_iff {f : FieldMapping φ ρ μ} : r.ownMapping? path name type = some f ↔
    ∃ m, r.objectMapping? path type = some m ∧ FirstWith (·.name = name) m.fields f := by
  rw [ownMapping?, Option.bind_eq_some_iff]
  simp only [ObjectMapping.field?, find?_eq_some_iff_firstWith]

theorem fieldMapping?_eq_findSome? (hacyclic : r.schema.Acyclic) {walk : List String}
    (h : r.schema.DepthFirst [type] walk) :
    r.fieldMapping? path type name = walk.findSome? (r.ownMapping? path name) := by
  rw [← hacyclic.findSome?_search _ h, List.findSome?_singleton]
  rfl

/-- The object mapping of a type is what the first mapping declared for it offers at a path, and
there is none where no mapping is declared or the first offers nothing. The mapping of a field is
the first of that name in the mapping of the first type that maps it on the one walk from a type
through its interfaces, and there is none where no type on the walk maps it. -/
theorem look_ups_follow_declarations (r : Registry φ ρ μ) (hacyclic : r.schema.Acyclic)
    (path : List String) (type name : String) :
    (∀ m, r.objectMapping? path type = some m ↔
      ∃ t, FirstWith (·.type = type) r.types t ∧ t.Offers path m) ∧
    (r.objectMapping? path type = none ↔ (∀ t ∈ r.types, t.type ≠ type) ∨
      ∃ t, FirstWith (·.type = type) r.types t ∧ t.OffersNothing path) ∧
    ∃ walk, (∀ walk', r.schema.DepthFirst [type] walk' ↔ walk' = walk) ∧
      (∀ f, r.fieldMapping? path type name = some f ↔
        ∃ t, FirstWith (r.Maps path name) walk t ∧
          ∃ m, r.objectMapping? path t = some m ∧ FirstWith (·.name = name) m.fields f) ∧
      (r.fieldMapping? path type name = none ↔ ∀ t ∈ walk, ¬ r.Maps path name t) := by
  obtain ⟨walk, hwalk⟩ := hacyclic.exists_depthFirst type
  have hmaps : (fun t => (r.ownMapping? path name t).isSome = true) = r.Maps path name :=
    funext fun t => propext isSome_ownMapping?_iff
  refine ⟨fun m => objectMapping?_eq_some_iff, objectMapping?_eq_none_iff, walk,
    fun walk' => ⟨hwalk.unique, fun h => h ▸ hwalk⟩, fun f => ?_, ?_⟩
  · rw [fieldMapping?_eq_findSome? hacyclic hwalk, findSome?_eq_some_iff_firstWith, hmaps]
    simp only [ownMapping?_eq_some_iff]
  · rw [fieldMapping?_eq_findSome? hacyclic hwalk, List.findSome?_eq_none_iff]
    simp only [← isSome_ownMapping?_iff, Option.not_isSome_iff_eq_none]

end Fields

end Registry

namespace Badges

/-- What is named is titled in a team, and named otherwise by a later entry for teams. -/
def namedEntries : List (List String × ObjectMapping MemberField Json Mapping) :=
  [([], ⟨"Named", []⟩),
    (["team"], ⟨"Named", [.source (.renamed "name" "title")]⟩),
    (["team"], ⟨"Named", [.source (.same "name")]⟩)]

/-- Badges are mapped at `pin` only. -/
def pinned : TypeMapping MemberField Json Mapping :=
  .byPath "Badge" [(["pin"], ⟨"Badge", [.source (.same "name")]⟩)]

def named : TypeMapping MemberField Json Mapping := .byPath "Named" namedEntries

def teams : DocumentRegistry where
  schema := schema
  types := [pinned, named]
  elaborators := []

theorem walk_of_badge : schema.DepthFirst ["Badge"] ["Badge", "Named"] :=
  .visit (.visit .done)

theorem firstWith_team :
    FirstWith (Registry.FitsBest ["team"] namedEntries) namedEntries
      (["team"], ⟨"Named", [.source (.renamed "name" "title")]⟩) := by
  refine ⟨⟨List.suffix_rfl, ?_⟩, [([], ⟨"Named", []⟩)],
    [(["team"], ⟨"Named", [.source (.same "name")]⟩)], rfl, ?_⟩
  · simp [namedEntries]
  · intro entry hentry hbest
    rw [List.mem_singleton.1 hentry] at hbest
    have hle := hbest.longest (["team"], ⟨"Named", [.source (.same "name")]⟩)
      (by simp [namedEntries]) List.suffix_rfl
    simp at hle

/-- In a team a badge has no mapping of its own, and its name is that of the first longest ending of
what is named. -/
theorem badge_of_team_is_titled :
    schema.Acyclic ∧ teams.objectMapping? ["team"] "Badge" = none ∧
      teams.objectMapping? ["team"] "Named" =
        some ⟨"Named", [.source (.renamed "name" "title")]⟩ ∧
      teams.fieldMapping? ["team"] "Badge" "name" = some (.source (.renamed "name" "title")) := by
  obtain ⟨-, hnone, walk, hwalk, hfield, -⟩ :=
    Registry.look_ups_follow_declarations teams acyclic ["team"] "Badge" "name"
  obtain ⟨hobject, -⟩ :=
    Registry.look_ups_follow_declarations teams acyclic ["team"] "Named" "name"
  obtain rfl := (hwalk _).1 walk_of_badge
  have hbadge : teams.objectMapping? ["team"] "Badge" = none := by
    refine hnone.2
      (.inr ⟨pinned, ⟨rfl, [], [named], rfl, List.forall_mem_nil _⟩, .byPath ?_⟩)
    simp only [List.forall_mem_singleton]
    decide
  have hnamed := (hobject _).2
    ⟨named, ⟨rfl, [pinned], [], rfl, by simp [pinned, TypeMapping.type]⟩, .byPath firstWith_team⟩
  refine ⟨acyclic, hbadge, hnamed,
    (hfield _).2 ⟨"Named", ?_, _, hnamed, rfl, [], [], rfl, List.forall_mem_nil _⟩⟩
  refine ⟨⟨_, hnamed, _, List.mem_cons_self, rfl⟩, ["Badge"], [], rfl, ?_⟩
  intro t ht hmaps
  rw [List.mem_singleton.1 ht] at hmaps
  obtain ⟨m, hm, -⟩ := hmaps
  rw [hbadge] at hm
  cases hm

end Badges

end MappedQuery
