import MappedQuery.Proofs.CheckedQueries

/-!
# Sites of selection sets

The selections of a request are elaborated at the root or, below a field or in a fragment, on a type
of a mapping that is reached through a path. Two lists of selections are alike at a site if what
elaboration leaves of them, the problems it meets, and the query it makes of them as a whole are
the same. Lists that are alike stay so beside others, below a field, in a fragment, and together
with a fragment on the type of the site.
-/
namespace MappedQuery

/-- Where selections are elaborated; nowhere, if a field they stand below is not known. -/
inductive Site where
  | root
  | inside (m : Mapping) (type : String) (path : List String)
  | nowhere

namespace Mapping

/-- The site below a field that is selected on a type. -/
def siteOf (m : Mapping) (type : String) (path : List String) (field : String) : Site :=
  match m.schema.field? type field with
  | none => .nowhere
  | some f =>
    match m.delegateTarget? path type field with
    | some target => .inside target f.type.underlying [field]
    | none => .inside m f.type.underlying (path ++ [field])

end Mapping

namespace Site

/-- The site below a field. -/
def field (e : Engine) : Site → String → Site
  | root, name =>
    if Query.introspectionRoots.contains name then
      e.introspection.siteOf e.introspection.schema.queryType [] name
    else e.mapping.siteOf e.mapping.schema.queryType [] name
  | inside m type path, name => m.siteOf type path name
  | nowhere, _ => nowhere

/-- The site in a fragment. -/
def narrowed (e : Engine) : Site → String → Site
  | root, condition => inside e.mapping condition []
  | inside m _ path, condition => inside m condition path
  | nowhere, _ => nowhere

/-- The type of a site that is somewhere. -/
def type? (e : Engine) : Site → Option String
  | root => some e.mapping.schema.queryType
  | inside _ type _ => some type
  | nowhere => none

end Site

namespace Query

variable {qs qs' as as' bs bs' : List Query}

/-- Elaboration of selections one by one: what is left of them and their problems. -/
def leftBy (f : Query → Outcome Query) (qs : List Query) : List Query :=
  (membersAll qs).flatMap fun q => ((f q).value?.getD .empty).members

def problemsBy (f : Query → Outcome Query) (qs : List Query) : List Problem :=
  (membersAll qs).flatMap fun q => (f q).problems

variable {f : Query → Outcome Query}

@[simp] theorem leftBy_append (as bs : List Query) :
    leftBy f (as ++ bs) = leftBy f as ++ leftBy f bs := by
  rw [leftBy, membersAll_append, List.flatMap_append, leftBy, leftBy]

@[simp] theorem problemsBy_append (as bs : List Query) :
    problemsBy f (as ++ bs) = problemsBy f as ++ problemsBy f bs := by
  rw [problemsBy, membersAll_append, List.flatMap_append, problemsBy, problemsBy]

theorem leftBy_singleton {q : Query} (hq : q.members = [q]) :
    leftBy f [q] = ((f q).value?.getD .empty).members := by
  simp [leftBy, membersAll, hq]

theorem problemsBy_singleton {q : Query} (hq : q.members = [q]) :
    problemsBy f [q] = (f q).problems := by
  simp [problemsBy, membersAll, hq]

theorem leftBy_eq_membersAll (f : Query → Outcome Query) (qs : List Query) :
    leftBy f qs = membersAll ((membersAll qs).map fun q => (f q).value?.getD .empty) := by
  rw [leftBy, ← List.flatMap_map, ← membersAll_eq_flatMap]

/-- Elaborating the members of queries and putting together what is left. -/
theorem collect_map_grouped (h : ∀ q, (f q).value?.isSome = true) (qs : List Query) :
    (Outcome.collect ((membersAll qs).map f)).map grouped =
      ⟨some (grouped (leftBy f qs)), problemsBy f qs⟩ := by
  have hvalue : ∀ q ∈ membersAll qs,
      (f q).value? = some ((f q).value?.getD .empty) := fun q _ => by
    obtain ⟨q', hq'⟩ := Option.isSome_iff_exists.1 (h q)
    rw [hq']
    rfl
  have hleft : grouped ((membersAll qs).map fun q => (f q).value?.getD .empty) =
      grouped (leftBy f qs) := grouped_congr <| by
    rw [leftBy_eq_membersAll, membersAll_membersAll]
  rw [Outcome.map, Outcome.value?_collect_map hvalue, Option.map_some, hleft,
    Outcome.problems_collect, List.flatMap_map]
  rfl

variable {m : Mapping} {type : String} {path : List String}

/-- Queries that are more than one are elaborated one by one. -/
theorem elaborate_grouped_of_two (h : 2 ≤ (membersAll qs).length) :
    (grouped qs).elaborate m type path = ⟨some (grouped (leftBy (elaborate m type path) qs)),
      problemsBy (elaborate m type path) qs⟩ := by
  have hgroup : grouped qs = .group (membersAll qs) := by
    unfold grouped
    split
    · rename_i hnone
      simp [hnone] at h
    · rename_i q hone
      simp [hone] at h
    · rfl
  rw [hgroup, elaborate, elaborateAll_eq_map,
    collect_map_grouped (fun q => isSome_elaborate m type path q)]

/-- What is left of queries as a whole is what is left of each of them. -/
theorem elaborate_grouped (m : Mapping) (type : String) (path : List String) (qs : List Query) :
    (((grouped qs).elaborate m type path).value?.getD .empty).members =
        leftBy (elaborate m type path) qs ∧
      ((grouped qs).elaborate m type path).problems = problemsBy (elaborate m type path) qs := by
  match hqs : membersAll qs with
  | [] =>
    have hempty : grouped qs = .empty := by rw [grouped, hqs]
    rw [hempty, leftBy, problemsBy, hqs, elaborate]
    · exact ⟨rfl, rfl⟩
    all_goals simp
  | [q] =>
    have hone : grouped qs = q := by rw [grouped, hqs]
    rw [hone, leftBy, problemsBy, hqs]
    simp
  | _ :: _ :: _ =>
    rw [elaborate_grouped_of_two (by simp [hqs])]
    refine ⟨?_, rfl⟩
    rw [Option.getD_some, members_grouped, leftBy_eq_membersAll, membersAll_membersAll]

theorem members_select (name : String) (alias? : Option String) (bindings : List Binding)
    (child : Query) :
    (select name alias? bindings child).members = [.select name alias? bindings child] := by
  rw [members] <;> simp

theorem members_narrow (condition : String) (child : Query) :
    (narrow condition child).members = [.narrow condition child] := by
  rw [members] <;> simp

theorem isEmpty_grouped_eq (h : membersAll qs = [] ↔ membersAll qs' = []) :
    (grouped qs).isEmpty = (grouped qs').isEmpty := by
  rw [Bool.eq_iff_iff, isEmpty_grouped, isEmpty_grouped, h]

end Query

namespace Site

/-- The lists of queries are elaborated to the same at a site and only both together are empty. At
the root emptiness does not count, and nowhere nothing else does. -/
def Alike (e : Engine) (allow : Bool) : Site → List Query → List Query → Prop
  | root, qs, qs' =>
    let elaborate := Query.elaborateRoot e.mapping e.introspection allow
    Query.leftBy elaborate qs = Query.leftBy elaborate qs' ∧
      Query.problemsBy elaborate qs = Query.problemsBy elaborate qs'
  | inside m type path, qs, qs' =>
    (Query.grouped qs).elaborate m type path = (Query.grouped qs').elaborate m type path ∧
      (Query.membersAll qs = [] ↔ Query.membersAll qs' = [])
  | nowhere, qs, qs' => Query.membersAll qs = [] ↔ Query.membersAll qs' = []

namespace Alike

open Query

variable {e : Engine} {allow : Bool} {p : Site} {qs qs' qs'' as as' bs bs' : List Query}

theorem of_members (h : membersAll qs = membersAll qs') : Alike e allow p qs qs' := by
  cases p with
  | root => simp [Alike, leftBy, problemsBy, h]
  | inside m type path => exact ⟨by rw [grouped_congr h], by rw [h]⟩
  | nowhere => simp [Alike, h]

theorem trans (h : Alike e allow p qs qs') (h' : Alike e allow p qs' qs'') :
    Alike e allow p qs qs'' := by
  cases p with
  | root => exact ⟨h.1.trans h'.1, h.2.trans h'.2⟩
  | inside m type path => exact ⟨h.1.trans h'.1, h.2.trans h'.2⟩
  | nowhere => exact Iff.trans h h'

/-- What is alike stays alike put together. -/
theorem group (h : Alike e allow p qs qs') : Alike e allow p [grouped qs] [grouped qs'] :=
  ((of_members (membersAll_singleton_grouped qs)).trans h).trans
    (of_members (membersAll_singleton_grouped qs').symm)

/-- What is alike stays alike beside others. -/
theorem append (has : Alike e allow p as as') (hbs : Alike e allow p bs bs') :
    Alike e allow p (as ++ bs) (as' ++ bs') := by
  cases p with
  | root => exact ⟨by simp [has.1, hbs.1], by simp [has.2, hbs.2]⟩
  | nowhere =>
    rw [Alike] at *
    simp [has, hbs]
  | inside m type path =>
    obtain ⟨hwhole, hsome⟩ := has
    obtain ⟨hwhole', hsome'⟩ := hbs
    refine ⟨?_, by simp [hsome, hsome']⟩
    by_cases ha : membersAll as = []
    · have hall : grouped (as ++ bs) = grouped bs := grouped_congr (by simp [ha])
      have hall' : grouped (as' ++ bs') = grouped bs' := grouped_congr (by simp [hsome.1 ha])
      rwa [hall, hall']
    · by_cases hb : membersAll bs = []
      · have hall : grouped (as ++ bs) = grouped as := grouped_congr (by simp [hb])
        have hall' : grouped (as' ++ bs') = grouped as' := grouped_congr (by simp [hsome'.1 hb])
        rwa [hall, hall']
      · have ha' := fun h => ha (hsome.2 h)
        have hb' := fun h => hb (hsome'.2 h)
        have htwo {as bs : List Query} (ha : membersAll as ≠ []) (hb : membersAll bs ≠ []) :
            2 ≤ (membersAll (as ++ bs)).length := by
          have := List.length_pos_iff.2 ha
          have := List.length_pos_iff.2 hb
          rw [membersAll_append, List.length_append]
          omega
        rw [elaborate_grouped_of_two (htwo ha hb), elaborate_grouped_of_two (htwo ha' hb'),
          leftBy_append, leftBy_append, problemsBy_append, problemsBy_append,
          ← (elaborate_grouped m type path as).1, ← (elaborate_grouped m type path bs).1,
          ← (elaborate_grouped m type path as).2, ← (elaborate_grouped m type path bs).2,
          hwhole, hwhole', (elaborate_grouped m type path as').1,
          (elaborate_grouped m type path bs').1, (elaborate_grouped m type path as').2,
          (elaborate_grouped m type path bs').2]

/-- Inside a mapping single queries are alike if they are elaborated to the same. -/
theorem inside_singleton {m : Mapping} {type : String} {path : List String} {q q' : Query}
    (hq : q.members = [q]) (hq' : q'.members = [q'])
    (h : q.elaborate m type path = q'.elaborate m type path) :
    Alike e allow (.inside m type path) [q] [q'] := by
  have hself {q : Query} (hq : q.members = [q]) : grouped [q] = q := by
    simp [grouped, membersAll, hq]
  exact ⟨by rw [hself hq, hself hq', h], by simp [membersAll, hq, hq']⟩

/-- At the root single queries are alike if they are elaborated to the same there. -/
theorem root_singleton {q q' : Query} (hq : q.members = [q]) (hq' : q'.members = [q'])
    (h : q.elaborateRoot e.mapping e.introspection allow =
      q'.elaborateRoot e.mapping e.introspection allow) :
    Alike e allow .root [q] [q'] :=
  ⟨by rw [leftBy_singleton hq, leftBy_singleton hq', h],
    by rw [problemsBy_singleton hq, problemsBy_singleton hq', h]⟩

/-- Only both together are empty, where there is no root. -/
theorem empty_iff (hp : p ≠ .root) (h : Alike e allow p qs qs') :
    membersAll qs = [] ↔ membersAll qs' = [] := by
  cases p with
  | root => exact absurd rfl hp
  | inside m type path => exact h.2
  | nowhere => exact h

theorem siteOf_ne_root (m : Mapping) (type : String) (path : List String) (name : String) :
    m.siteOf type path name ≠ .root := by
  unfold Mapping.siteOf
  split
  · simp
  · split <;> simp

/-- Selections of one field with selections that are alike below the field. -/
theorem elaborate_select {m : Mapping} {type : String} {path : List String} {name : String}
    (h : Alike e allow (m.siteOf type path name) qs qs') (alias? : Option String)
    (bindings : List Binding) :
    (Query.select name alias? bindings (grouped qs)).elaborate m type path =
      (Query.select name alias? bindings (grouped qs')).elaborate m type path := by
  have hempty := isEmpty_grouped_eq (h.empty_iff (siteOf_ne_root m type path name))
  rw [elaborate, elaborate, ← hempty]
  split
  · split
    · rename_i hnone
      have hnone' := hempty ▸ hnone
      rw [isEmpty_grouped] at hnone hnone'
      rw [grouped, hnone, grouped, hnone']
    · rfl
  · rw [Mapping.siteOf] at h
    cases hf : m.schema.field? type name with
    | none => rfl
    | some f =>
      rw [hf] at h
      dsimp only at h ⊢
      split
      · rfl
      · split
        · rfl
        · rfl
        · cases htarget : m.delegateTarget? path type name with
          | none =>
            rw [htarget] at h
            dsimp only
            rw [h.1]
          | some target =>
            rw [htarget] at h
            dsimp only
            rw [h.1]

/-- What is alike below a field stays alike in selections of the field. -/
theorem select {name : String} (h : Alike e allow (p.field e name) qs qs')
    (alias? : Option String) (bindings : List Binding) :
    Alike e allow p [.select name alias? bindings (grouped qs)]
      [.select name alias? bindings (grouped qs')] := by
  cases p with
  | nowhere => simp [Alike, membersAll, members_select]
  | inside m type path =>
    exact inside_singleton (members_select ..) (members_select ..) (elaborate_select h ..)
  | root =>
    refine root_singleton (members_select ..) (members_select ..) ?_
    rw [elaborateRoot, elaborateRoot, isIntrospectionRoot, isIntrospectionRoot]
    rw [Site.field] at h
    split
    · rename_i hintrospection
      rw [if_pos hintrospection] at h
      rw [elaborate_select h]
    · rename_i hintrospection
      rw [if_neg hintrospection] at h
      rw [elaborate_select h]

theorem elaborate_narrow {m : Mapping} {type condition : String} {path : List String}
    (h : (grouped qs).elaborate m condition path = (grouped qs').elaborate m condition path) :
    (Query.narrow condition (grouped qs)).elaborate m type path =
      (Query.narrow condition (grouped qs')).elaborate m type path := by
  rw [elaborate, elaborate]
  split
  · rename_i hsame
    rw [← hsame, h]
  · rw [h]

theorem elaborateRoot_narrow (m introspection : Mapping) (condition : String) (child : Query) :
    (Query.narrow condition child).elaborateRoot m introspection allow =
      (Query.narrow condition child).elaborate m m.schema.queryType [] :=
  if_neg Bool.false_ne_true

/-- What is alike in a fragment stays alike with the fragment around it. -/
theorem narrow {condition : String} (h : Alike e allow (p.narrowed e condition) qs qs') :
    Alike e allow p [.narrow condition (grouped qs)] [.narrow condition (grouped qs')] := by
  cases p with
  | nowhere => simp [Alike, membersAll, members_narrow]
  | inside m type path =>
    exact inside_singleton (members_narrow ..) (members_narrow ..) (elaborate_narrow h.1)
  | root =>
    refine root_singleton (members_narrow ..) (members_narrow ..) ?_
    rw [elaborateRoot_narrow, elaborateRoot_narrow, elaborate_narrow h.1]

/-- Selections are like a fragment of them on the type of the site. Where an empty list counts,
something must be left of them, and at the root they must not ask for the schema. -/
theorem narrow_type {type : String} (htype : ∀ t, p.type? e = some t → t = type)
    (hsome : p ≠ .root → membersAll qs ≠ [])
    (hroot : p = .root → ∀ q ∈ membersAll qs, q.isIntrospectionRoot = false) :
    Alike e allow p qs [.narrow type (grouped qs)] := by
  cases p with
  | nowhere => simpa [Alike, membersAll, members_narrow] using hsome
  | inside m t path =>
    obtain rfl := htype t rfl
    refine ⟨?_, by simpa [membersAll, members_narrow] using hsome⟩
    have hself : grouped [Query.narrow t (grouped qs)] = .narrow t (grouped qs) := by
      simp [grouped, membersAll, members_narrow]
    rw [hself, elaborate, if_pos rfl]
  | root =>
    obtain rfl := htype _ rfl
    have hmember : ∀ q ∈ membersAll qs, q.elaborateRoot e.mapping e.introspection allow =
        q.elaborate e.mapping e.mapping.schema.queryType [] := fun q hq => by
      rw [elaborateRoot, hroot rfl q hq]
      exact if_neg Bool.false_ne_true
    obtain ⟨hleft, hproblems⟩ :=
      elaborate_grouped e.mapping e.mapping.schema.queryType [] qs
    refine ⟨?_, ?_⟩
    · rw [leftBy_singleton (members_narrow ..), elaborateRoot_narrow, elaborate, if_pos rfl, hleft,
        leftBy, leftBy, List.flatMap_def, List.flatMap_def,
        List.map_congr_left fun q hq => by rw [hmember q hq]]
    · rw [problemsBy_singleton (members_narrow ..), elaborateRoot_narrow, elaborate, if_pos rfl,
        hproblems, problemsBy, problemsBy, List.flatMap_def, List.flatMap_def,
        List.map_congr_left fun q hq => by rw [hmember q hq]]

/-- Requests whose roots are alike are compiled alike. -/
theorem compileQuery (h : Alike e allow .root qs qs') :
    e.compileQuery allow (grouped qs) = e.compileQuery allow (grouped qs') := by
  have hroots (qs : List Query) : (grouped qs).elaborateRoots e.mapping e.introspection allow =
      ⟨some (grouped (leftBy (elaborateRoot e.mapping e.introspection allow) qs)),
        problemsBy (elaborateRoot e.mapping e.introspection allow) qs⟩ := by
    rw [elaborateRoots, members_grouped, collect_map_grouped]
    intro q
    unfold elaborateRoot
    split
    · split
      · rw [Outcome.map, Option.isSome_map]
        exact isSome_elaborate _ _ _ _
      · rfl
    · exact isSome_elaborate _ _ _ _
  rw [Engine.compileQuery, Engine.compileQuery, hroots, hroots, h.1, h.2]

end Alike

end Site

end MappedQuery
