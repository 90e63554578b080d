import MappedQuery.Proofs.IntrospectionAnswers

/-!
# Roots that are dropped

A selection that cannot be elaborated is reported, and nothing is left of it. What stood around it
may still be there: a fragment, or the mark of a root of introspection. A request of which nothing
at all is left is not run and has no data. Where something stands around nothing the request is
run: its data are there and empty, and the fragments are reported once more.
-/
namespace MappedQuery

open Sql

namespace Query

mutual

/-- Whether a query has no selections, but at most what stands around them. -/
def isHollow : Query → Bool
  | .empty => true
  | .narrow _ child | .introspect child => child.isHollow
  | .group queries => areHollow queries
  | _ => false

def areHollow : List Query → Bool
  | [] => true
  | q :: rest => q.isHollow && areHollow rest

end

/-- What is read of a root that has no selections. -/
def strays : Query → List Query
  | .introspect child => child.members
  | q => q.members

/-- The report of a root that is no selection. -/
def strayProblem (q : Query) : Problem := (Fault.interpreter (.unexpectedRoot q)).toProblem

theorem areHollow_iff {queries : List Query} :
    areHollow queries = true ↔ ∀ q ∈ queries, q.isHollow = true := by
  induction queries with
  | nil => simp [areHollow]
  | cons q rest ih => simp [areHollow, ih]

theorem isHollow_of_mem_members {q a : Query} (h : q.isHollow = true) (ha : a ∈ q.members) :
    a.isHollow = true :=
  of_mem_members (P := fun q => q.isHollow = true)
    (fun qs hqs => areHollow_iff.1 (by rwa [isHollow] at hqs)) h ha

mutual

/-- Without selections there are no delegated fields. -/
theorem delegate_of_isHollow (m : Mapping) : ∀ (q : Query) (type : String) (path : List String),
    q.isHollow = true → q.delegate m type path = q
  | .empty, type, path, h => rfl
  | .narrow condition child, type, path, h => by
    rw [isHollow] at h
    rw [delegate, delegate_of_isHollow m child condition path h]
  | .introspect child, type, path, h => rfl
  | .group queries, type, path, h => by
    rw [isHollow] at h
    rw [delegate, delegateAll_of_areHollow m queries type path h]
  | .select .., type, path, h | .filter .., type, path, h | .unique _, type, path, h
  | .limit .., type, path, h | .orderBy .., type, path, h | .component .., type, path, h => by
    cases h

theorem delegateAll_of_areHollow (m : Mapping) :
    ∀ (queries : List Query) (type : String) (path : List String),
      areHollow queries = true → delegateAll m type path queries = queries
  | [], type, path, h => rfl
  | q :: rest, type, path, h => by
    rw [areHollow, Bool.and_eq_true] at h
    rw [delegateAll, delegate_of_isHollow m q type path h.1,
      delegateAll_of_areHollow m rest type path h.2]

end

section Answers

variable {m introspection : Mapping}

theorem answerRoot_of_isHollow {q : Query} (h : q.isHollow = true) :
    m.answerRoot q = pure ⟨[], [q.strayProblem]⟩ := by
  cases q <;> first | rfl | cases h

theorem answerRoots_of_isHollow {queries : List Query} (h : ∀ q ∈ queries, q.isHollow = true) :
    m.answerRoots queries = pure ⟨[], queries.map strayProblem⟩ := by
  induction queries with
  | nil => rfl
  | cons q rest ih =>
    rw [Mapping.answerRoots, answerRoot_of_isHollow (h q List.mem_cons_self),
      ih fun a ha => h a (List.mem_cons_of_mem q ha)]
    rfl

theorem answerBranch_of_isHollow {q : Query} (h : q.isHollow = true) :
    q.answerBranch m introspection = pure ⟨[], q.strays.map strayProblem⟩ := by
  cases q with
  | introspect child =>
    rw [isHollow] at h
    exact answerRoots_of_isHollow fun a => isHollow_of_mem_members h
  | _ => exact answerRoots_of_isHollow fun a => isHollow_of_mem_members h

/-- Nothing is read of roots without selections, and what is left of them is reported. -/
theorem answerBranches_of_isHollow {queries : List Query} (h : ∀ q ∈ queries, q.isHollow = true) :
    answerBranches m introspection queries =
      pure ⟨[], (queries.flatMap strays).map strayProblem⟩ := by
  induction queries with
  | nil => rfl
  | cons q rest ih =>
    rw [answerBranches, answerBranch_of_isHollow (h q List.mem_cons_self),
      ih fun a ha => h a (List.mem_cons_of_mem q ha), List.flatMap_cons, List.map_append]
    rfl

end Answers

end Query

namespace Engine

section Dropped

variable (e : Engine) (allow : Bool) (root : Query)

/-- What elaboration makes of a root in the mapping that it belongs to. -/
def elaborated : Outcome Query :=
  let m := if root.isIntrospectionRoot then e.introspection else e.mapping
  root.elaborate m m.schema.queryType []

/-- What is left of a root for the mappings to read. -/
def leftOf : Query :=
  (root.elaborateRoot e.mapping e.introspection allow).value?.getD .empty

/-- What is reported of a root before it is read. -/
def rootProblems : List Problem :=
  (root.elaborateRoot e.mapping e.introspection allow).problems

/-- Everything that is left of the roots of a query. -/
def remains (q : Query) : List Query := Query.membersAll (q.members.map (e.leftOf allow))

/-- A root is dropped: it may not be asked for, or none of its selections is left and there are
problems. -/
def Drops : Prop :=
  root.isIntrospectionRoot = true ∧ allow = false ∨
    (e.elaborated root).value?.any Query.isHollow = true ∧ (e.elaborated root).problems ≠ []

/-- Nothing is left where a root is elaborated, not even a fragment. -/
def IsCleared : Prop := (e.elaborated root).value?.any (·.members.isEmpty) = true

/-- Nothing at all is left of a root: it may not be asked for, or it is none of introspection and
it is cleared. -/
def Vanishes : Prop := if root.isIntrospectionRoot then allow = false else e.IsCleared root

instance : Decidable (e.Drops allow root) := inferInstanceAs (Decidable (_ ∨ _))

instance : Decidable (e.IsCleared root) := inferInstanceAs (Decidable (_ = _))

instance : Decidable (e.Vanishes allow root) :=
  inferInstanceAs (Decidable (if root.isIntrospectionRoot then allow = false else e.IsCleared root))

variable {e allow root}

theorem elaborateRoot_eq : root.elaborateRoot e.mapping e.introspection allow =
    if root.isIntrospectionRoot then
      if allow then (e.elaborated root).map .introspect
      else Query.dropped .introspectionDisabled
    else e.elaborated root := by
  unfold Query.elaborateRoot elaborated
  cases root.isIntrospectionRoot <;> rfl

theorem exists_elaborated (e : Engine) (root : Query) :
    ∃ left, (e.elaborated root).value? = some left :=
  Option.isSome_iff_exists.1 (Query.isSome_elaborate _ _ _ root)

theorem value?_elaborateRoot (e : Engine) (allow : Bool) (root : Query) :
    (root.elaborateRoot e.mapping e.introspection allow).value? = some (e.leftOf allow root) := by
  obtain ⟨left, hleft⟩ :=
    Option.isSome_iff_exists.1 (Query.isSome_elaborateRoot e.mapping e.introspection allow root)
  rw [leftOf, hleft, Option.getD_some]

/-- The mark of introspection stays around what is left of a root. -/
theorem leftOf_eq {left : Query} (h : (e.elaborated root).value? = some left) :
    e.leftOf allow root =
      if root.isIntrospectionRoot then if allow then .introspect left else .empty else left := by
  rw [leftOf, elaborateRoot_eq]
  cases root.isIntrospectionRoot
  · rw [if_neg Bool.false_ne_true, if_neg Bool.false_ne_true, h, Option.getD_some]
  · cases allow
    · rfl
    · rw [if_pos rfl, if_pos rfl, if_pos rfl, if_pos rfl, Outcome.map, h]
      rfl

theorem rootProblems_eq : e.rootProblems allow root =
    if root.isIntrospectionRoot && !allow then [Fault.introspectionDisabled.toProblem]
    else (e.elaborated root).problems := by
  rw [rootProblems, elaborateRoot_eq]
  cases root.isIntrospectionRoot
  · rfl
  · cases allow <;> rfl

theorem Drops.isHollow_leftOf (h : e.Drops allow root) : (e.leftOf allow root).isHollow = true := by
  obtain ⟨hroot, hallow⟩ | ⟨hhollow, -⟩ := h
  · obtain ⟨left, hvalue⟩ := exists_elaborated e root
    rw [leftOf_eq hvalue, if_pos hroot, hallow]
    rfl
  · obtain ⟨left, hvalue, hleft⟩ := (Option.any_eq_true _ _).1 hhollow
    rw [leftOf_eq hvalue]
    cases root.isIntrospectionRoot
    · exact hleft
    · cases allow
      · rfl
      · exact hleft

theorem Drops.rootProblems_ne_nil (h : e.Drops allow root) : e.rootProblems allow root ≠ [] := by
  rw [rootProblems_eq]
  obtain ⟨hroot, hallow⟩ | ⟨-, hproblems⟩ := h
  · rw [hroot, hallow]
    exact List.cons_ne_nil _ _
  · split
    · exact List.cons_ne_nil _ _
    · exact hproblems

theorem members_leftOf_eq_nil_iff : (e.leftOf allow root).members = [] ↔ e.Vanishes allow root := by
  obtain ⟨left, hvalue⟩ := exists_elaborated e root
  have hcleared : e.IsCleared root ↔ left.members = [] := by
    rw [IsCleared, hvalue, Option.any_some, List.isEmpty_iff]
  rw [leftOf_eq hvalue, Vanishes, hcleared]
  cases root.isIntrospectionRoot
  · rfl
  · cases allow
    · exact iff_of_true rfl rfl
    · exact iff_of_false (List.cons_ne_nil _ _) (Bool.noConfusion)

theorem remains_eq_nil_iff {q : Query} :
    e.remains allow q = [] ↔ ∀ root ∈ q.members, e.Vanishes allow root := by
  rw [remains, Query.membersAll_eq_flatMap, List.flatMap_map, List.flatMap_eq_nil_iff]
  exact forall₂_congr fun root _ => members_leftOf_eq_nil_iff

theorem IsCleared.strays_leftOf (h : e.IsCleared root) :
    (e.leftOf allow root).members.flatMap Query.strays = [] := by
  obtain ⟨left, hvalue, hleft⟩ := (Option.any_eq_true _ _).1 h
  rw [List.isEmpty_iff] at hleft
  rw [leftOf_eq hvalue]
  cases root.isIntrospectionRoot
  · rw [if_neg Bool.false_ne_true, hleft, List.flatMap_nil]
  · cases allow
    · rfl
    · exact (List.flatMap_singleton ..).trans hleft

theorem isHollow_of_mem_remains {q a : Query} (h : ∀ root ∈ q.members, e.Drops allow root)
    (ha : a ∈ e.remains allow q) : a.isHollow = true := by
  rw [remains, Query.membersAll_eq_flatMap, List.mem_flatMap] at ha
  obtain ⟨left, hleft, ha⟩ := ha
  obtain ⟨root, hroot, rfl⟩ := List.mem_map.1 hleft
  exact Query.isHollow_of_mem_members (h root hroot).isHollow_leftOf ha

/-- A query of which all roots are dropped is compiled to what is left around nothing. -/
theorem compileQuery_of_drops {q : Query} (h : ∀ root ∈ q.members, e.Drops allow root) :
    e.compileQuery allow q =
      ⟨some (Query.grouped (e.remains allow q)), q.members.flatMap (e.rootProblems allow)⟩ := by
  have hdelegate : Query.delegateRoots e.mapping (Query.grouped (q.members.map (e.leftOf allow))) =
      Query.grouped (e.remains allow q) := by
    have hhollow (a : Query) (ha : a ∈ e.remains allow q) :
        a.delegate e.mapping e.mapping.schema.queryType [] = a :=
      Query.delegate_of_isHollow _ _ _ _ (isHollow_of_mem_remains h ha)
    rw [Query.delegateRoots, Query.members_grouped]
    exact congrArg Query.grouped ((List.map_congr_left hhollow).trans (List.map_id' _))
  rw [compileQuery, Query.elaborateRoots, Outcome.map, Outcome.map,
    Outcome.value?_collect_map fun root _ => value?_elaborateRoot e allow root,
    Outcome.problems_collect, List.flatMap_map, Option.map_some, Option.map_some, hdelegate]
  rfl

/-- A request of which all roots are dropped reports the problems of each of them. It has no data
if nothing at all is left of them; else its data are there and empty, and what stands around
nothing is reported, but for the roots of introspection. -/
theorem respond_of_drops {q : Query} (h : ∀ root ∈ q.members, e.Drops allow root)
    (session : Sql.Session) :
    (e.respond allow q).run session =
      (⟨if (e.remains allow q).isEmpty && !q.members.isEmpty then none else some (.object []),
        q.members.flatMap (e.rootProblems allow) ++
          ((e.remains allow q).flatMap Query.strays).map Query.strayProblem⟩, session) := by
  have hreported : (q.members.flatMap (e.rootProblems allow)).isEmpty = q.members.isEmpty := by
    rw [Bool.eq_iff_iff, List.isEmpty_iff, List.isEmpty_iff, List.flatMap_eq_nil_iff]
    refine ⟨fun hnone => List.eq_nil_iff_forall_not_mem.2 fun root hroot => ?_, fun hnone => ?_⟩
    · exact (h root hroot).rootProblems_ne_nil (hnone root hroot)
    · rw [hnone]
      exact fun root hroot => absurd hroot List.not_mem_nil
  have hempty : (Query.grouped (e.remains allow q)).isEmpty = (e.remains allow q).isEmpty := by
    rw [Bool.eq_iff_iff, Query.isEmpty_grouped, List.isEmpty_iff, remains,
      Query.membersAll_membersAll]
  have hmembers : (Query.grouped (e.remains allow q)).members = e.remains allow q := by
    rw [Query.members_grouped, remains, Query.membersAll_membersAll]
  rw [respond, compileQuery_of_drops h, runCompiled]
  dsimp only
  rw [hempty, hreported]
  split
  · rename_i hnothing
    rw [Bool.and_eq_true, List.isEmpty_iff] at hnothing
    rw [hnothing.1, List.flatMap_nil, List.map_nil, List.append_nil]
    rfl
  · rw [run, Query.answer, hmembers,
      Query.answerBranches_of_isHollow fun a => isHollow_of_mem_remains h]
    rfl

/-- A request of which all roots are dropped reports the problems of each root, in order. It has no
data if and only if there are roots and nothing at all is left of any of them; else its data are
there and empty. More is reported only where a fragment is left. -/
theorem dropped_roots_have_empty_data {r : EngineRequest} (hread : (read r).isOk = true)
    (hdropped : ∀ root ∈ r.roots, e.Drops r.allowIntrospection root) :
    ∃ response, (∀ session, (e.execute r).run session = (response, session)) ∧
      (response.data? = none ↔
        r.roots ≠ [] ∧ ∀ root ∈ r.roots, e.Vanishes r.allowIntrospection root) ∧
      (response.data? ≠ none → response.data? = some (.object [])) ∧
      (∀ root ∈ r.roots, e.rootProblems r.allowIntrospection root ≠ []) ∧
      ∃ strays : List Query, response.errors =
          r.roots.flatMap (e.rootProblems r.allowIntrospection) ++
            strays.map Query.strayProblem ∧
        ((∀ root ∈ r.roots, e.Vanishes r.allowIntrospection root ∨ e.IsCleared root) →
          strays = []) := by
  cases hq : read r with
  | error f =>
    rw [hq] at hread
    cases hread
  | ok q =>
    have hroots : r.roots = q.members := by
      rw [EngineRequest.roots, hq]
    have hexecute : e.execute r = e.respond r.allowIntrospection q := by
      rw [execute_eq, hq]
    rw [hroots] at hdropped ⊢
    refine ⟨_, fun session => hexecute ▸ respond_of_drops hdropped session, ?_, ?_,
      fun root hroot => (hdropped root hroot).rootProblems_ne_nil, _, rfl, ?_⟩
    · rw [← remains_eq_nil_iff]
      dsimp only
      cases hnone : e.remains r.allowIntrospection q <;> cases hany : q.members <;> simp
    · dsimp only
      split
      · exact fun h => absurd rfl h
      · exact fun _ => rfl
    · intro hcleared
      rw [remains, Query.membersAll_eq_flatMap, List.flatMap_map, List.flatMap_assoc,
        List.flatMap_eq_nil_iff]
      intro root hroot
      obtain hvanishes | hcleared := hcleared root hroot
      · rw [members_leftOf_eq_nil_iff.2 hvanishes, List.flatMap_nil]
      · exact hcleared.strays_leftOf

end Dropped

end Engine

namespace Wells

/-- A schema of one well, known by its depth. -/
def schema : Schema := .ofTypes [
  .object ⟨"Query", [⟨"depth", [], .nullable (.named "String")⟩], []⟩] "Query"

def engine : Engine := .ofMapping <| .documents {
  schema
  types := [.object ⟨"Query", [.root "depth" (.string "deep")]⟩]
  elaborators := [] }

/-- A field that is not there, and the schema, which may not be asked for. -/
def withheld : EngineRequest :=
  ⟨"\x7b width __schema \x7b types \x7b name \x7d \x7d \x7d", none, none, false⟩

theorem withheld_wells_have_no_data :
    (Engine.read withheld).isOk = true ∧ (∀ root ∈ withheld.roots, engine.Drops false root) ∧
      ∃ response, (∀ session, (engine.execute withheld).run session = (response, session)) ∧
        response.data? = none ∧
          response.errors = withheld.roots.flatMap (engine.rootProblems false) := by
  have hread : (Engine.read withheld).isOk = true := by decide +kernel
  have hdropped : ∀ root ∈ withheld.roots, engine.Drops false root := by decide +kernel
  have hvanish : withheld.roots ≠ [] ∧ ∀ root ∈ withheld.roots, engine.Vanishes false root := by
    decide +kernel
  obtain ⟨response, hrun, hdata, -, -, strays, herrors, hstrays⟩ :=
    Engine.dropped_roots_have_empty_data hread hdropped
  obtain rfl := hstrays fun root hroot => .inl (hvanish.2 root hroot)
  exact ⟨hread, hdropped, response, hrun, hdata.2 hvanish, herrors.trans (List.append_nil _)⟩

/-- The schema without a selection. -/
def bare : EngineRequest := ⟨"\x7b __schema \x7d", none, none, true⟩

/-- The only root is dropped and reported, but there are data. -/
theorem bare_schema_has_data :
    (Engine.read bare).isOk = true ∧ bare.roots ≠ [] ∧
      (∀ root ∈ bare.roots, (engine.elaborated root).value?.any Query.isEmpty = true ∧
        engine.Drops true root) ∧
      ((engine.execute bare).run (.start fun _ _ => .ok ⟨[], []⟩)).1.data? ≠ none := by
  refine ⟨?_, ?_, ?_, ?_⟩
  · decide +kernel
  · decide +kernel
  · decide +kernel
  · decide +kernel

end Wells

end MappedQuery
