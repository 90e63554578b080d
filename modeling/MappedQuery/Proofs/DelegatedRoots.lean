import MappedQuery.Proofs.RootIsolation

/-!
# Delegated roots

A root field that a mapping leaves to another one is answered as an engine over the other mapping
answers it: the arguments are checked against the same schema, the elaborator is that of the other
mapping, below the root the other mapping counts in both engines, and the join of the field is not
asked, since a root has no object to be joined with. This needs two things of the other mapping. It
must answer the field itself: delegation of a root is followed once, and where it leads to a
mapping that delegates the field again the root is missing. And its elaborator must leave selections
of the field: another field would be looked for in the first mapping.
-/
namespace MappedQuery

namespace Query

mutual

/-- Whether all that a root query selects is one field of the query type, under whatever keys and
with fragments on the query type. -/
def selectsOnly (queryType field : String) : Query → Bool
  | select name _ _ _ => name = field
  | narrow condition child => condition = queryType && child.selectsOnly queryType field
  | group queries => allSelectOnly queryType field queries
  | empty => true
  | _ => false

def allSelectOnly (queryType field : String) : List Query → Bool
  | [] => true
  | q :: rest => q.selectsOnly queryType field && allSelectOnly queryType field rest

end

/-- All roots of a query are selections of one field. -/
def Selects (field : String) (q : Query) : Prop :=
  ∀ root ∈ q.members, ∃ s : Select, root = s.toQuery ∧ s.name = field

variable {field : String}

theorem selects_empty : empty.Selects field := fun _ h => by
  rw [members] at h
  cases h

theorem selects_toQuery (s : Select) : s.toQuery.Selects s.name := fun root h => by
  rw [Select.toQuery, members] at h
  · exact ⟨s, List.mem_singleton.1 h, rfl⟩
  · simp
  · simp

theorem selects_grouped {queries : List Query} (h : ∀ q ∈ queries, q.Selects field) :
    (grouped queries).Selects field := by
  intro root hroot
  rw [members_grouped, membersAll_eq_flatMap] at hroot
  obtain ⟨q, hq, hroot⟩ := List.mem_flatMap.1 hroot
  exact h q hq root hroot

end Query

/-- An elaborator refuses a selection or leaves selections of its field. -/
def Elaborator.KeepsField (elaborator : Elaborator) : Prop :=
  ∀ s q, elaborator s = .ok q → q.Selects s.name

namespace Outcome

variable {α β : Type}

/-- What is known of the value of an outcome, if it has one. -/
def Holds (P : α → Prop) (o : Outcome α) : Prop := ∀ a, o.value? = some a → P a

theorem Holds.andThen {P : β → Prop} {o : Outcome α} {f : α → Outcome β}
    (h : ∀ a, (f a).Holds P) : (o.andThen f).Holds P := by
  intro b hb
  unfold Outcome.andThen at hb
  split at hb
  · exact h _ b hb
  · cases hb

theorem Holds.map {P : β → Prop} {Q : α → Prop} {o : Outcome α} {f : α → β} (ho : o.Holds Q)
    (h : ∀ a, Q a → P (f a)) : (o.map f).Holds P := by
  intro b hb
  obtain ⟨a, ha, rfl⟩ := Option.map_eq_some_iff.1 hb
  exact h a (ho a ha)

theorem Holds.collect {P : α → Prop} : ∀ {os : List (Outcome α)}, (∀ o ∈ os, o.Holds P) →
    (Outcome.collect os).Holds fun as => ∀ a ∈ as, P a
  | [], _, as, h => by
    cases h
    exact fun a ha => by cases ha
  | o :: rest, hos, as, h => by
    rw [Outcome.collect] at h
    obtain ⟨⟨first, others⟩, hzip, rfl⟩ := Option.map_eq_some_iff.1 h
    obtain ⟨a, ha, hmap⟩ := Option.bind_eq_some_iff.1 hzip
    obtain ⟨bs, hbs, heq⟩ := Option.map_eq_some_iff.1 hmap
    cases heq
    intro b hb
    rcases List.mem_cons.1 hb with rfl | hb
    · exact hos o List.mem_cons_self _ ha
    · exact Holds.collect (fun p hp => hos p (List.mem_cons_of_mem _ hp)) _ hbs b hb

end Outcome

section Delegated

/-- `outer` leaves the root field to `inner`, which answers it itself: both have one schema, and
`outer` has no elaborator for the field. -/
structure Mapping.LeavesRootTo (outer inner : Mapping) (field : String) : Prop where
  schema : outer.schema = inner.schema
  target : outer.delegateTarget? [] inner.schema.queryType field = some inner
  elaborator : outer.elaborator? inner.schema.queryType field = none

variable {outer inner : Mapping} {field : String}

namespace Query

/-- Without further delegation the two mappings elaborate the root alike. -/
theorem elaborate_select_leavesRootTo (h : outer.LeavesRootTo inner field)
    (hanswers : inner.delegateTarget? [] inner.schema.queryType field = none)
    (alias? : Option String) (bindings : List Binding) (child : Query) :
    elaborate outer inner.schema.queryType [] (.select field alias? bindings child) =
      elaborate inner inner.schema.queryType [] (.select field alias? bindings child) := by
  have helaborator : outer.fieldElaborator? (some inner) inner.schema.queryType field =
      inner.fieldElaborator? none inner.schema.queryType field := by
    rw [Mapping.fieldElaborator?, Mapping.fieldElaborator?, h.elaborator, Option.none_or,
      Option.bind_some, Option.or_self, Option.bind_none, Option.or_none]
  rw [elaborate, elaborate, h.schema, h.target, hanswers]
  dsimp only
  rw [helaborator]
  rfl

mutual

theorem elaborate_leavesRootTo (h : outer.LeavesRootTo inner field)
    (hanswers : inner.delegateTarget? [] inner.schema.queryType field = none) :
    ∀ {q : Query}, q.selectsOnly inner.schema.queryType field = true →
      elaborate outer inner.schema.queryType [] q = elaborate inner inner.schema.queryType [] q
  | .select name alias? bindings child, hq => by
    rw [selectsOnly, decide_eq_true_eq] at hq
    exact hq ▸ elaborate_select_leavesRootTo (hq ▸ h) (hq ▸ hanswers) alias? bindings child
  | .narrow condition child, hq => by
    rw [selectsOnly, Bool.and_eq_true, decide_eq_true_eq] at hq
    rw [elaborate, elaborate, if_pos hq.1, if_pos hq.1]
    exact elaborate_leavesRootTo h hanswers hq.2
  | .group queries, hq => by
    rw [selectsOnly] at hq
    rw [elaborate, elaborate, elaborateAll_leavesRootTo h hanswers hq]
  | .empty, _ => by
    rw [elaborate, elaborate] <;> simp
  | .filter .., hq | .unique _, hq | .limit .., hq | .orderBy .., hq | .component .., hq
  | .introspect _, hq => by
    rw [selectsOnly] at hq
    · cases hq
    all_goals simp

theorem elaborateAll_leavesRootTo (h : outer.LeavesRootTo inner field)
    (hanswers : inner.delegateTarget? [] inner.schema.queryType field = none) :
    ∀ {queries : List Query}, allSelectOnly inner.schema.queryType field queries = true →
      elaborateAll outer inner.schema.queryType [] queries =
        elaborateAll inner inner.schema.queryType [] queries
  | [], _ => by rw [elaborateAll, elaborateAll]
  | q :: rest, hqs => by
    rw [allSelectOnly, Bool.and_eq_true] at hqs
    rw [elaborateAll, elaborateAll, elaborate_leavesRootTo h hanswers hqs.1,
      elaborateAll_leavesRootTo h hanswers hqs.2]

end

/-- Elaboration leaves selections of the field. -/
theorem selects_applyElaborator (hkeeps : ∀ elaborator,
    inner.elaborator? inner.schema.queryType field = some elaborator → elaborator.KeepsField)
    {s : Select} (hs : s.name = field) :
    (applyElaborator (inner.fieldElaborator? none inner.schema.queryType field) s).Holds
      (Selects field) := by
  rw [Mapping.fieldElaborator?, Option.bind_none, Option.or_none]
  intro q hq
  unfold applyElaborator at hq
  split at hq
  · cases hq
    exact hs ▸ selects_toQuery s
  · rename_i elaborator helaborator
    split at hq
    · rename_i q' hq'
      cases hq
      exact hs ▸ hkeeps elaborator helaborator s q hq'
    · cases hq
      exact selects_empty

mutual

theorem selects_elaborate
    (hanswers : inner.delegateTarget? [] inner.schema.queryType field = none)
    (hkeeps : ∀ elaborator, inner.elaborator? inner.schema.queryType field = some elaborator →
      elaborator.KeepsField) :
    ∀ {q : Query}, q.selectsOnly inner.schema.queryType field = true →
      (elaborate inner inner.schema.queryType [] q).Holds (Selects field)
  | .select name alias? bindings child, hq => by
    rw [selectsOnly, decide_eq_true_eq] at hq
    subst hq
    have hdropped (f : Fault) : (dropped f).Holds (Selects name) := fun q h => by
      cases h
      exact selects_empty
    rw [elaborate]
    split
    · split
      · intro q h
        cases h
        exact selects_toQuery ⟨name, alias?, bindings, child⟩
      · exact hdropped _
    · split
      · exact hdropped _
      · split
        · exact hdropped _
        · dsimp only
          split
          · exact hdropped _
          · exact hdropped _
          · rw [hanswers]
            exact .andThen fun child => selects_applyElaborator hkeeps rfl
  | .narrow condition child, hq => by
    rw [selectsOnly, Bool.and_eq_true, decide_eq_true_eq] at hq
    rw [elaborate, if_pos hq.1]
    exact selects_elaborate hanswers hkeeps hq.2
  | .group queries, hq => by
    rw [selectsOnly] at hq
    rw [elaborate]
    exact (Outcome.Holds.collect (selects_elaborateAll hanswers hkeeps hq)).map
      fun _ => selects_grouped
  | .empty, _ => fun q h => by
    rw [elaborate] at h
    · cases h
      exact selects_empty
    all_goals simp
  | .filter .., hq | .unique _, hq | .limit .., hq | .orderBy .., hq | .component .., hq
  | .introspect _, hq => by
    rw [selectsOnly] at hq
    · cases hq
    all_goals simp

theorem selects_elaborateAll
    (hanswers : inner.delegateTarget? [] inner.schema.queryType field = none)
    (hkeeps : ∀ elaborator, inner.elaborator? inner.schema.queryType field = some elaborator →
      elaborator.KeepsField) :
    ∀ {queries : List Query}, allSelectOnly inner.schema.queryType field queries = true →
      ∀ o ∈ elaborateAll inner inner.schema.queryType [] queries, o.Holds (Selects field)
  | [], _, o, ho => by
    rw [elaborateAll] at ho
    cases ho
  | q :: rest, hqs, o, ho => by
    rw [allSelectOnly, Bool.and_eq_true] at hqs
    rw [elaborateAll] at ho
    rcases List.mem_cons.1 ho with rfl | ho
    · exact selects_elaborate hanswers hkeeps hqs.1
    · exact selects_elaborateAll hanswers hkeeps hqs.2 o ho

end

/-- The type of a selected field below its wrappers; a field that is not declared counts as one of
its type. -/
def selectedType (m : Mapping) (type field : String) : String :=
  ((m.schema.field? type field).map (·.type.underlying)).getD type

theorem delegate_of_target {m target : Mapping} {type : String} {path : List String} {s : Select}
    (htarget : m.delegateTarget? path type s.name = some target) (hs : s.name ≠ "__typename") :
    s.toQuery.delegate m type path = .component type s.name
      { s with
        child := s.child.delegate target (selectedType m type s.name) [s.name] }.toQuery := by
  rw [Select.toQuery, delegate, if_neg hs, htarget]
  rfl

theorem delegate_of_no_target {m : Mapping} {type : String} {path : List String} {s : Select}
    (htarget : m.delegateTarget? path type s.name = none) (hs : s.name ≠ "__typename") :
    s.toQuery.delegate m type path = { s with
      child := s.child.delegate m (selectedType m type s.name) (path ++ [s.name]) }.toQuery := by
  rw [Select.toQuery, delegate, if_neg hs, htarget]
  rfl

end Query

namespace Mapping

end Mapping

namespace Query

end Query

namespace Engine

end Engine

end Delegated

namespace Mapping

theorem delegateTarget?_of_delegated {m : Mapping} {path : List String} {type field : String}
    {d : Delegate Mapping} (h : m.resolve path type field = .delegated d) :
    m.delegateTarget? path type field = some d.target := by
  rw [delegateTarget?, h]

end Mapping

namespace Harbors

def schema : Schema := Schema.ofTypes [
  .object ⟨"Query", [⟨"harbors", [⟨"limit", .nullable (.named "Int"), none⟩],
    .list (.named "Harbor")⟩, ⟨"ports", [], .list (.named "Harbor")⟩], []⟩,
  .object ⟨"Harbor", [⟨"name", [], .named "String"⟩], []⟩] "Query"

/-- Two harbors under two names, the first one with an elaborator. -/
def registry (steps : List Elaborator.Step) : Mapping :=
  let harbors := Json.array
    [.object [("name", .string "Rotterdam")], .object [("name", .string "Genoa")]]
  .documents {
    schema
    types := [
      .object ⟨"Query", [.root "harbors" harbors, .root "ports" harbors]⟩,
      .object ⟨"Harbor", [.source (.same "name")]⟩]
    elaborators := [(("Query", "harbors"), Elaborator.ofSteps steps)] }

/-- The first of the harbors under another key, in a fragment. -/
def request : EngineRequest :=
  ⟨"{ ... on Query { first: harbors(limit: 1) { name } } }", none, none, true⟩

/-- The problems in a response to the request. -/
def errors (m : Mapping) : List Problem :=
  (((Engine.ofMapping m).execute request).run (.start fun _ _ => .ok ⟨[], []⟩)).1.errors

end Harbors

end MappedQuery
