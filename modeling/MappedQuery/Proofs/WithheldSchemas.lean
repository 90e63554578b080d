import MappedQuery.Proofs.CheckedQueries
import MappedQuery.Proofs.StaticPaths

/-!
# Requests that may not ask for the schema

Where introspection is not allowed, its roots are reported and left out, and wherever else its
fields are written they are fields like all others. So nothing of what is compiled is a selection
of the type system, unless an elaborator makes one, and only such a selection is answered by the
mapping that describes the schema. Joins are not made before the request is run, and what they make
is answered by the mapping of the delegated field: whatever they make, the schema is not shown.
-/
namespace MappedQuery

namespace Query

mutual

/-- Whether a query has a selection of the type system in it, at any depth. -/
def introspects : Query → Bool
  | .introspect _ => true
  | .select _ _ _ child | .filter _ child | .unique child | .narrow _ child | .limit _ child
  | .orderBy _ child | .component _ _ child => child.introspects
  | .group queries => anyIntrospects queries
  | .empty => false

def anyIntrospects : List Query → Bool
  | [] => false
  | q :: rest => q.introspects || anyIntrospects rest

end

theorem anyIntrospects_eq_false {qs : List Query} :
    anyIntrospects qs = false ↔ ∀ q ∈ qs, q.introspects = false := by
  induction qs with
  | nil => exact ⟨fun _ q hq => absurd hq List.not_mem_nil, fun _ => rfl⟩
  | cons q rest ih =>
    rw [anyIntrospects, Bool.or_eq_false_iff, ih]
    exact ⟨fun h => List.forall_mem_cons.2 h, fun h => List.forall_mem_cons.1 h⟩

theorem introspects_group (qs : List Query) :
    (group qs).introspects = false ↔ ∀ q ∈ qs, q.introspects = false := by
  rw [introspects]
  exact anyIntrospects_eq_false

theorem introspects_grouped {qs : List Query} (h : ∀ q ∈ qs, q.introspects = false) :
    (grouped qs).introspects = false :=
  of_grouped (P := fun q => q.introspects = false) rfl introspects_group h

theorem introspects_of_mem_members {q a : Query} (h : q.introspects = false)
    (ha : a ∈ q.members) : a.introspects = false :=
  of_mem_members (P := fun q => q.introspects = false) (fun qs => (introspects_group qs).1) h ha

mutual

/-- A request writes no selection of the type system; its roots are made one when it is
compiled. -/
theorem introspects_of_isWritten : ∀ {q : Query}, q.isWritten = true → q.introspects = false
  | .select _ _ _ child, h | .narrow _ child, h => by
    rw [isWritten] at h
    rw [introspects]
    exact introspects_of_isWritten h
  | .group queries, h => by
    rw [isWritten] at h
    exact (introspects_group queries).2 (introspects_of_areWritten h)
  | .empty, _ => rfl
  | .filter .., h | .unique _, h | .limit .., h | .orderBy .., h | .component .., h
  | .introspect _, h => by
    rw [isWritten] at h
    cases h

theorem introspects_of_areWritten : ∀ {qs : List Query}, areWritten qs = true →
    ∀ q ∈ qs, q.introspects = false
  | [], _ => fun q hq => absurd hq List.not_mem_nil
  | q :: rest, h => by
    rw [areWritten, Bool.and_eq_true] at h
    exact List.forall_mem_cons.2 ⟨introspects_of_isWritten h.1, introspects_of_areWritten h.2⟩

end

mutual

/-- Components are made of selections alone. -/
theorem introspects_delegate : ∀ (m : Mapping) (type : String) (path : List String) (q : Query),
    (q.delegate m type path).introspects = q.introspects
  | m, type, path, .select name alias? bindings child => by
    rw [delegate]
    split
    · rfl
    · dsimp only
      split <;> simp only [introspects, introspects_delegate _ _ _ child]
  | m, type, path, .filter _ child | m, type, path, .unique child | m, type, path, .limit _ child
  | m, type, path, .orderBy _ child | m, type, path, .narrow _ child => by
    rw [delegate, introspects, introspects, introspects_delegate _ _ _ child]
  | m, type, path, .group queries => by
    rw [delegate, introspects, introspects, anyIntrospects_delegateAll m type path queries]
  | m, type, path, .component .. | m, type, path, .introspect _ | m, type, path, .empty => by
    rw [delegate]

theorem anyIntrospects_delegateAll : ∀ (m : Mapping) (type : String) (path : List String)
    (qs : List Query), anyIntrospects (delegateAll m type path qs) = anyIntrospects qs
  | m, type, path, [] => by rw [delegateAll]
  | m, type, path, q :: rest => by
    rw [delegateAll, anyIntrospects, anyIntrospects, introspects_delegate m type path q,
      anyIntrospects_delegateAll m type path rest]

end

end Query

/-- What is known of a value, and then of what is made of it. -/
theorem Outcome.Holds.andThen_of {α β : Type} {P : β → Prop} {Q : α → Prop} {o : Outcome α}
    {f : α → Outcome β} (ho : o.Holds Q) (h : ∀ a, Q a → (f a).Holds P) :
    (o.andThen f).Holds P := by
  intro b hb
  unfold Outcome.andThen at hb
  split at hb
  · rename_i a ha
    exact h a (ho a ha) b hb
  · cases hb

/-- An elaborator makes no selection of the type system of a selection without one. -/
def Elaborator.Abstains (elaborator : Elaborator) : Prop :=
  ∀ s q, s.child.introspects = false → elaborator s = .ok q → q.introspects = false

namespace Mapping

/-- The elaborators of a mapping, and of those that its delegated fields lead to, make no selection
of the type system. -/
def Abstains (m : Mapping) : Prop :=
  ∀ target, Relation.ReflTransGen DelegatesTo m target → ∀ type field elaborator,
    target.elaborator? type field = some elaborator → elaborator.Abstains

variable {m : Mapping} {path : List String} {type field : String}

theorem Abstains.target {target : Mapping} (h : m.Abstains)
    (htarget : m.delegateTarget? path type field = some target) :
    target.Abstains := by
  obtain ⟨d, hd, rfl⟩ := delegated_of_delegateTarget? htarget
  exact fun _ hreaches => h _ (hreaches.head ⟨path, type, field, d, hd, rfl⟩)

theorem Abstains.of_target (hown : ∀ type field elaborator,
      m.elaborator? type field = some elaborator → elaborator.Abstains)
    (htarget : ∀ target, m.DelegatesTo target → target.Abstains) : m.Abstains := by
  intro reached hreaches
  rcases Relation.ReflTransGen.cases_head hreaches with rfl | ⟨target, hfirst, hrest⟩
  · exact hown
  · exact htarget target hfirst reached hrest

/-- The elaborator of a field is one of the mapping, or of the mapping it is delegated to. -/
theorem Abstains.fieldElaborator? (h : m.Abstains) {elaborator : Elaborator}
    (helaborator : m.fieldElaborator? (m.delegateTarget? path type field) type field =
      some elaborator) : elaborator.Abstains := by
  unfold Mapping.fieldElaborator? at helaborator
  rcases Option.or_eq_some_iff.1 helaborator with hown | ⟨-, hdelegated⟩
  · exact h m .refl type field elaborator hown
  · obtain ⟨target, htarget, hfound⟩ := Option.bind_eq_some_iff.1 hdelegated
    rcases Option.or_eq_some_iff.1 hfound with hfound | ⟨-, hfound⟩
    · exact h.target htarget target .refl _ _ elaborator hfound
    · exact h.target htarget target .refl _ _ elaborator hfound

end Mapping

namespace Query

theorem introspects_dropped (f : Fault) : (dropped f).Holds fun q => q.introspects = false := by
  rintro q ⟨⟩
  rfl

theorem introspects_success {q : Query} (h : q.introspects = false) :
    (Outcome.success q).Holds fun q => q.introspects = false := by
  rintro _ ⟨⟩
  exact h

theorem introspects_applyElaborator {elaborator? : Option Elaborator}
    (habstains : ∀ elaborator, elaborator? = some elaborator → elaborator.Abstains) {s : Select}
    (hs : s.child.introspects = false) :
    (applyElaborator elaborator? s).Holds fun q => q.introspects = false := by
  unfold applyElaborator
  split
  · exact introspects_success hs
  · rename_i elaborator
    split
    · rename_i made hmade
      exact introspects_success (habstains elaborator rfl s made hs hmade)
    · exact introspects_dropped _

mutual

/-- Elaboration leaves no selection of the type system where there was none. -/
theorem introspects_elaborate : ∀ {m : Mapping} {type : String} {path : List String} {q : Query},
    m.Abstains → q.introspects = false →
      (q.elaborate m type path).Holds fun q => q.introspects = false
  | m, type, path, .select name alias? bindings child, hm, hq => by
    rw [elaborate]
    split
    · split
      · exact introspects_success hq
      · exact introspects_dropped _
    · split
      · exact introspects_dropped _
      · split
        · exact introspects_dropped _
        · dsimp only
          split
          · exact introspects_dropped _
          · exact introspects_dropped _
          · rw [introspects] at hq
            refine Outcome.Holds.andThen_of (Q := fun child => child.introspects = false) ?_
              fun child hchild =>
                introspects_applyElaborator (fun _ => hm.fieldElaborator?) hchild
            split
            · rename_i target htarget
              exact introspects_elaborate (hm.target htarget) hq
            · exact introspects_elaborate hm hq
  | m, type, path, .narrow condition child, hm, hq => by
    rw [introspects] at hq
    rw [elaborate]
    split
    · exact introspects_elaborate hm hq
    · split
      · exact introspects_dropped _
      · split
        · exact (introspects_elaborate hm hq).map fun _ => id
        · exact introspects_dropped _
  | m, type, path, .group queries, hm, hq => by
    rw [introspects] at hq
    rw [elaborate]
    exact (Outcome.Holds.collect (introspects_elaborateAll hm hq)).map
      fun _ => introspects_grouped
  | m, type, path, .filter .., hm, hq | m, type, path, .unique _, hm, hq
  | m, type, path, .limit .., hm, hq | m, type, path, .orderBy .., hm, hq
  | m, type, path, .component .., hm, hq | m, type, path, .introspect _, hm, hq
  | m, type, path, .empty, hm, hq => by
    rw [elaborate]
    · exact introspects_success hq
    all_goals simp

theorem introspects_elaborateAll : ∀ {m : Mapping} {type : String} {path : List String}
    {qs : List Query}, m.Abstains → anyIntrospects qs = false →
      ∀ o ∈ elaborateAll m type path qs, o.Holds fun q => q.introspects = false
  | m, type, path, [], hm, hqs, o, ho => by
    rw [elaborateAll] at ho
    cases ho
  | m, type, path, q :: rest, hm, hqs, o, ho => by
    rw [anyIntrospects, Bool.or_eq_false_iff] at hqs
    rw [elaborateAll] at ho
    rcases List.mem_cons.1 ho with rfl | ho
    · exact introspects_elaborate hm hqs.1
    · exact introspects_elaborateAll hm hqs.2 o ho

end

/-- Without leave, a root of introspection is left out like any selection that fails. -/
theorem introspects_elaborateRoot {m introspection : Mapping} {root : Query} (hm : m.Abstains)
    (hroot : root.introspects = false) :
    (root.elaborateRoot m introspection false).Holds fun q => q.introspects = false := by
  unfold elaborateRoot
  split
  · exact introspects_dropped _
  · exact introspects_elaborate hm hroot

/-- What has no selection of the type system is answered without the mapping that describes it. -/
theorem answerBranches_congr (m introspection other : Mapping) {qs : List Query}
    (h : ∀ q ∈ qs, q.introspects = false) :
    answerBranches m introspection qs = answerBranches m other qs := by
  have hbranch : ∀ q ∈ qs, q.answerBranch m introspection = q.answerBranch m other := by
    intro q hq
    cases q with
    | introspect child => cases h _ hq
    | _ => rfl
  induction qs with
  | nil => rfl
  | cons q rest ih =>
    rw [answerBranches, answerBranches, hbranch q List.mem_cons_self,
      ih (fun a ha => h a (List.mem_cons_of_mem _ ha))
        fun a ha => hbranch a (List.mem_cons_of_mem _ ha)]

end Query

namespace Engine

/-- What is compiled without leave to ask for the schema does not depend on the mapping that
describes it. -/
theorem compileQuery_withheld (m introspection other : Mapping) (q : Query) :
    (Engine.mk m introspection).compileQuery false q =
      (Engine.mk m other).compileQuery false q := by
  have hroots : Query.elaborateRoot m introspection false = Query.elaborateRoot m other false := by
    funext root
    rw [Query.elaborateRoot, Query.elaborateRoot, if_neg Bool.false_ne_true,
      if_neg Bool.false_ne_true]
  unfold compileQuery Query.elaborateRoots
  rw [hroots]

theorem introspects_compileQuery {e : Engine} (he : e.mapping.Abstains) {q : Query}
    (hq : q.introspects = false) :
    (e.compileQuery false q).Holds fun q => q.introspects = false := by
  have helaborated : (q.elaborateRoots e.mapping e.introspection false).Holds
      fun q => q.introspects = false := by
    refine (Outcome.Holds.collect fun o ho => ?_).map fun _ => Query.introspects_grouped
    obtain ⟨root, hroot, rfl⟩ := List.mem_map.1 ho
    exact Query.introspects_elaborateRoot he (Query.introspects_of_mem_members hq hroot)
  refine helaborated.map fun elaborated h => Query.introspects_grouped fun root hroot => ?_
  obtain ⟨a, ha, rfl⟩ := List.mem_map.1 hroot
  rw [Query.introspects_delegate]
  exact Query.introspects_of_mem_members h ha

/-- Where introspection is not allowed, no selection of the type system is compiled, wherever the
request writes one, and the response is the same whatever mapping describes the schema. -/
theorem withheld_schema_is_not_shown {e : Engine} (he : e.mapping.Abstains) {r : EngineRequest}
    (hr : r.allowIntrospection = false) :
    (∀ q, (e.compile r).value? = some q → q.introspects = false) ∧
      ∀ introspection, ({ e with introspection } : Engine).execute r = e.execute r := by
  have hcompiled : ∀ q, (e.compile r).value? = some q → q.introspects = false := by
    intro q hq
    rw [compile, hr] at hq
    cases hread : read r with
    | error f =>
      rw [hread] at hq
      cases hq
    | ok written =>
      rw [hread] at hq
      exact introspects_compileQuery he (Query.introspects_of_isWritten (isWritten_read hread)) q hq
  refine ⟨hcompiled, fun introspection => ?_⟩
  have hcompile : ({ e with introspection } : Engine).compile r = e.compile r := by
    unfold compile
    rw [hr, funext fun q => compileQuery_withheld e.mapping introspection e.introspection q]
  unfold execute runCompiled
  rw [hcompile]
  split
  · rfl
  · rename_i q hq
    have hanswer : q.answer e.mapping introspection = q.answer e.mapping e.introspection := by
      rw [Query.answer, Query.answer, Query.answerBranches_congr e.mapping introspection
        e.introspection fun a => Query.introspects_of_mem_members (hcompiled q hq)]
    unfold run
    rw [hanswer]

end Engine

/-- Steps that wrap the child of a selection make no selection of the type system. -/
theorem Elaborator.abstains_ofSteps {steps : List Elaborator.Step}
    (h : ∀ step ∈ steps, ∀ query, step ≠ .replace query) :
    Abstains (Elaborator.ofSteps steps) := fun s _ hs hq => by
  obtain ⟨child, hchild, rfl⟩ := exists_child_of_ofSteps (P := fun q => q.introspects = false)
    (fun _ _ => id) (fun _ => id) (fun _ _ => id) (fun _ _ => id) h hs hq
  exact hchild

namespace Archives

def schema : Schema := .ofTypes [
  .object ⟨"Query", [⟨"files", [⟨"limit", .nullable (.named "Int"), none⟩],
    .list (.named "File")⟩, ⟨"keeper", [], .named "Person"⟩], []⟩,
  .object ⟨"File", [⟨"label", [], .named "String"⟩, ⟨"keeper", [], .named "Person"⟩], []⟩,
  .object ⟨"Person", [⟨"name", [], .named "String"⟩], []⟩] "Query"

/-- The keeper of all files. -/
def persons : DocumentRegistry where
  schema := schema
  types := [
    .object ⟨"Query", [.root "keeper" (.object [("name", .string "Ann")])]⟩,
    .object ⟨"Person", [.source (.same "name")]⟩]
  elaborators := []

def keeper : Delegate Mapping := ⟨"keeper", .documents persons, .trivial⟩

/-- Files, of which a request may limit the number, and whose keeper is known elsewhere. -/
def registry : DocumentRegistry where
  schema := schema
  types := [
    .object ⟨"Query", [.root "files" (.array [.object [("label", .string "A to K")]])]⟩,
    .object ⟨"File", [.source (.same "label"), .delegate keeper]⟩]
  elaborators := [(("Query", "files"), Elaborator.ofSteps [.limit "limit"])]

def engine : Engine := .ofMapping (.documents registry)

theorem abstains : (Mapping.documents registry).Abstains := by
  refine .of_target (fun type field elaborator h => ?_) ?_
  · cases List.mem_singleton.1 (Registry.mem_of_elaborator? h)
    exact Elaborator.abstains_ofSteps (by simp)
  · rintro target ⟨path, type, name, d, hd, rfl⟩
    obtain rfl : d = keeper := by
      simpa [registry, Registry.allFields] using (Registry.delegate_of_resolve hd).1
    refine .of_target (fun type field elaborator h => ?_) ?_
    · cases Registry.mem_of_elaborator? h
    · rintro target ⟨path, type, name, d, hd, rfl⟩
      simpa [keeper, persons, Registry.allFields] using (Registry.delegate_of_resolve hd).1

/-- Asks for the schema at the root, and for a type below a field that is delegated. -/
def request : EngineRequest :=
  ⟨"{ all: __schema { types { name } } files(limit: 1) { keeper { name __type { kind } } } }",
    none, none, false⟩

/-- Something is left of the request, and nothing of it asks for the schema. -/
theorem files_ask_for_no_schema :
    (Mapping.documents registry).Abstains ∧ request.allowIntrospection = false ∧
      (engine.compile request).value?.map Query.isEmpty = some false ∧
      (∀ q, (engine.compile request).value? = some q → q.introspects = false) ∧
      ∀ introspection, ({ engine with introspection } : Engine).execute request =
        engine.execute request := by
  have hshown := Engine.withheld_schema_is_not_shown (e := engine) abstains (r := request) rfl
  exact ⟨abstains, rfl, by decide +kernel, hshown.1, hshown.2⟩

end Archives

end MappedQuery
