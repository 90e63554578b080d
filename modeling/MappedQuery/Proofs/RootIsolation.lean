import MappedQuery.Mapping.Rules
import MappedQuery.Proofs.CompiledRoots
import MappedQuery.Proofs.HistoryFree
import MappedQuery.Proofs.ObjectMembers

/-!
# Root selections are isolated

A request is answered root by root. Over a database that answers each statement for itself, a
root gives under its key what it gives as the only root of a request, and the problems of a
request are those of its roots, those of compiling first. So a root that is added, removed, moved
or broken changes nothing for the others.
-/
namespace MappedQuery

namespace Query

variable (m introspection : Mapping)

theorem answerBranches_append (as bs : List Query) :
    answerBranches m introspection (as ++ bs) = (do
      let first ← answerBranches m introspection as
      let rest ← answerBranches m introspection bs
      pure (first.append rest)) := by
  induction as with
  | nil =>
    have hempty : RootResult.empty.append = id := rfl
    simp [answerBranches, hempty]
  | cons a as ih =>
    have hassoc (x y : RootResult) :
        (x.append y).append = fun z => x.append (y.append z) := by
      funext z
      simp [RootResult.append, List.append_assoc]
    simp [answerBranches, ih, hassoc]

/-- In a session of a database without a memory the answers of branches are those of its start,
one after the other. -/
theorem answerBranches_flatMap {α : Type} {s : Sql.Session} (hfree : s.database.HistoryFree)
    (branches : α → List Query) (l : List α) :
    ((answerBranches m introspection (l.flatMap branches)).run s).1 =
      ⟨l.flatMap fun a => ((answerBranches m introspection (branches a)).run s).1.members,
        l.flatMap fun a => ((answerBranches m introspection (branches a)).run s).1.problems⟩ := by
  induction l with
  | nil => rfl
  | cons a l ih =>
    have hfirst := steady_answerBranches m introspection (branches a)
    have hrest := steady_answerBranches m introspection (l.flatMap branches)
    rw [List.flatMap_cons, answerBranches_append,
      hfirst.run_bind (fun _ => hrest.bind fun _ => .pure _) hfree,
      hrest.run_bind (fun _ => .pure _) hfree, ih]
    rfl

end Query

/-- Whatever is answered is answered under one key. -/
def UnderKey (key : String) (x : StateM Sql.Session RootResult) : Prop :=
  ∀ s, ∀ member ∈ (x.run s).1.members, member.1 = key

namespace UnderKey

variable {key : String} {x y : StateM Sql.Session RootResult}

theorem empty : UnderKey key (pure .empty) := by
  rintro s member ⟨⟩

theorem ofMember (value : Json) : UnderKey key (pure (.ofMember key value)) := by
  intro s member h
  rw [List.mem_singleton.1 h]

theorem ofRoot (x : StateM Sql.Session (Except Fault Json)) :
    UnderKey key (do pure (.ofRoot key (← x))) := by
  intro s member h
  change member ∈ (RootResult.ofRoot key (x.run s).1).members at h
  cases hx : (x.run s).1 <;> rw [hx] at h <;> rw [List.mem_singleton.1 h]

theorem append (hx : UnderKey key x) (hy : UnderKey key y) :
    UnderKey key (do
      let first ← x
      pure (first.append (← y))) := by
  intro s member h
  rcases List.mem_append.1 h with h | h
  · exact hx _ _ h
  · exact hy _ _ h

end UnderKey

theorem Mapping.underKey_answerRoot (m : Mapping) (s : Select) :
    UnderKey s.resultName (m.answerRoot s.toQuery) := by
  unfold Select.toQuery answerRoot
  dsimp only
  split
  · exact .ofMember _
  · exact .ofRoot _

/-- A root answers under its key only. -/
theorem Query.RootOf.underKey {key : String} {q : Query} (h : RootOf key q)
    (m introspection : Mapping) : UnderKey key (answerBranches m introspection q.members) := by
  cases h with
  | dropped => exact .empty
  | selected s hkey =>
    exact .append (.append (hkey ▸ m.underKey_answerRoot s) .empty) .empty
  | delegated type field s hkey =>
    exact .append (.append (hkey ▸ .ofRoot (m.readDelegatedRoot s).run) .empty) .empty
  | introspected s hkey =>
    exact .append (.append (hkey ▸ introspection.underKey_answerRoot s) .empty) .empty
  | unanswered => exact .append .empty .empty

/-- The last member of a key among those of roots with different keys is that of the root. -/
theorem lastMember?_flatMap {roots : List Select} (hkeys : (roots.map Select.resultName).Nodup)
    {members : Select → Members}
    (hmembers : ∀ s ∈ roots, ∀ m ∈ members s, m.1 = s.resultName) {s : Select} (hs : s ∈ roots) :
    Json.lastMember? s.resultName (roots.flatMap members) =
      Json.lastMember? s.resultName (members s) := by
  have hnone {rest : List Select} (hrest : s.resultName ∉ rest.map Select.resultName)
      (hmembers : ∀ t ∈ rest, ∀ m ∈ members t, m.1 = t.resultName) :
      Json.lastMember? s.resultName (rest.flatMap members) = none := by
    refine Json.lastMember?_eq_none.2 fun m hm hkey => hrest ?_
    obtain ⟨t, ht, hmt⟩ := List.mem_flatMap.1 hm
    exact List.mem_map.2 ⟨t, ht, (hmembers t ht m hmt).symm.trans hkey⟩
  induction roots with
  | nil => cases hs
  | cons t rest ih =>
    obtain ⟨hfresh, hrest⟩ := List.nodup_cons.1 hkeys
    have hothers : ∀ u ∈ rest, ∀ m ∈ members u, m.1 = u.resultName :=
      fun u hu => hmembers u (List.mem_cons_of_mem _ hu)
    rw [List.flatMap_cons, Json.lastMember?_append]
    rcases List.mem_cons.1 hs with rfl | hs
    · rw [hnone hfresh hothers, Option.none_or]
    · rw [ih hrest hothers hs]
      have hfirst : Json.lastMember? s.resultName (members t) = none := by
        refine Json.lastMember?_eq_none.2 fun m hm hkey => hfresh ?_
        rw [← hmembers t List.mem_cons_self m hm, hkey]
        exact List.mem_map_of_mem hs
      rw [hfirst, Option.or_none]

namespace Engine

/-- The response to a request that was read as a query. -/
def respond (e : Engine) (allow : Bool) (q : Query) : StateM Sql.Session Response :=
  Response.ofOutcome <$> e.runCompiled (e.compileQuery allow q)

theorem execute_eq (e : Engine) (r : EngineRequest) :
    e.execute r =
      match read r with
      | .ok q => e.respond r.allowIntrospection q
      | .error f => pure (.ofProblem f.toProblem) := by
  unfold execute compile
  cases read r with
  | ok q => rfl
  | error f => rfl

/-- The response to a request whose only root is a selection. -/
def alone (e : Engine) (allow : Bool) (database : Sql.Database) (s : Select) : Response :=
  ((e.respond allow s.toQuery).run (.start database)).1

/-- The problems that are met when a root is compiled as the only one. -/
def compileProblems (e : Engine) (allow : Bool) (s : Select) : List Problem :=
  (e.compileQuery allow s.toQuery).problems

/-- The problems that are met when a root is run as the only one: those that its response reports
after the problems of compiling it. -/
def runProblems (e : Engine) (allow : Bool) (database : Sql.Database) (s : Select) :
    List Problem :=
  (e.alone allow database s).errors.drop (e.compileProblems allow s).length

/-- What a compiled root answers. -/
private def rootAnswer (e : Engine) (allow : Bool) (database : Sql.Database) (s : Select) :
    RootResult :=
  ((Query.answerBranches e.mapping e.introspection (e.rootQuery allow s).members).run
    (.start database)).1

section Isolation

variable {e : Engine} {database : Sql.Database} (hm : e.mapping.KeepsRootKeys)
  (hi : e.introspection.KeepsRootKeys) (hfree : database.HistoryFree)
include hm hi hfree

omit hm hi hfree in
/-- The response to a query that was compiled: what the branches answer, unless nothing but
problems is left. -/
private theorem respond_eq (allow : Bool) {q compiled : Query}
    (hvalue : (e.compileQuery allow q).value? = some compiled) {session : Sql.Session}
    {answered : RootResult} (hanswered : ((Query.answerBranches e.mapping e.introspection
      compiled.members).run session).1 = answered) :
    ((e.respond allow q).run session).1 =
      if (compiled.isEmpty && !(e.compileQuery allow q).problems.isEmpty) = true then
        ⟨none, (e.compileQuery allow q).problems⟩
      else
        ⟨some (.ofMembers answered.members),
          (e.compileQuery allow q).problems ++ answered.problems⟩ := by
  subst hanswered
  rw [respond, runCompiled, hvalue]
  dsimp only
  split
  · rfl
  · rfl

omit hfree in
/-- Nothing but problems is left of roots if there are any and each of them was dropped. -/
private theorem isDropped_iff (allow : Bool) {roots : List Select} {compiled : Query}
    (hmembers : compiled.members = roots.flatMap fun s => (e.rootQuery allow s).members)
    (hempty : compiled.isEmpty = true ↔ compiled.members = []) :
    (compiled.isEmpty &&
        !(roots.flatMap fun s => (e.compiledRoot allow s).problems).isEmpty) = true ↔
      roots ≠ [] ∧ ∀ s ∈ roots, (e.rootQuery allow s).isEmpty = true := by
  have hroot (s : Select) := rootQuery_root allow hm hi s
  have hnothing : compiled.isEmpty = true ↔
      ∀ s ∈ roots, (e.rootQuery allow s).isEmpty = true := by
    rw [hempty, hmembers, List.flatMap_eq_nil_iff]
    refine forall₂_congr fun s _ => ?_
    rw [(hroot s).2.1.members_eq]
    cases (e.rootQuery allow s).isEmpty <;> simp
  rw [Bool.and_eq_true, hnothing, Bool.not_eq_true', List.isEmpty_eq_false_iff]
  constructor
  · rintro ⟨hall, hreported⟩
    refine ⟨?_, hall⟩
    rintro rfl
    exact hreported rfl
  · rintro ⟨hsome, hall⟩
    obtain ⟨s, hs⟩ := List.exists_mem_of_ne_nil _ hsome
    refine ⟨hall, fun hsilent => ?_⟩
    exact (hroot s).2.2 (hall s hs) (List.flatMap_eq_nil_iff.1 hsilent s hs)

/-- The response to a request with these roots is put together from what each root answers. -/
private theorem respond_roots (allow : Bool) {q : Query} {roots : List Select}
    (hroots : q.members = roots.map Select.toQuery) {session : Sql.Session}
    (hsession : session.database = database) :
    (∀ key, ((e.respond allow q).run session).1.data?.bind (Json.get? key) =
      (Json.lastMember? key
        (roots.flatMap fun s => (e.rootAnswer allow database s).members)).map (·.2)) ∧
    (((e.respond allow q).run session).1.data?.isSome = true ↔
      roots = [] ∨ ∃ s ∈ roots, (e.rootQuery allow s).isEmpty = false) ∧
    ((e.respond allow q).run session).1.errors =
      roots.flatMap (fun s => (e.compiledRoot allow s).problems) ++
        roots.flatMap fun s => (e.rootAnswer allow database s).problems := by
  obtain ⟨hproblems, compiled, hvalue, hmembers, hempty⟩ := compileQuery_roots allow hm hi hroots
  have hanswer : ((Query.answerBranches e.mapping e.introspection compiled.members).run session).1 =
      ⟨roots.flatMap fun s => (e.rootAnswer allow database s).members,
        roots.flatMap fun s => (e.rootAnswer allow database s).problems⟩ := by
    rw [(Query.steady_answerBranches e.mapping e.introspection compiled.members (.start database)
      session hfree hsession).1, hmembers]
    exact Query.answerBranches_flatMap e.mapping e.introspection hfree _ roots
  have hdropped := isDropped_iff hm hi allow hmembers hempty
  rw [respond_eq allow hvalue hanswer, hproblems]
  split
  · rename_i h
    obtain ⟨hsome, hall⟩ := hdropped.1 h
    -- without branches nothing is answered
    rw [hempty.1 (Bool.and_eq_true_iff.1 h).1] at hanswer
    injection hanswer with hanswers hraised
    rw [← hanswers, ← hraised]
    refine ⟨fun key => rfl, iff_of_false Bool.false_ne_true ?_, (List.append_nil _).symm⟩
    rintro (hnil | ⟨s, hs, hleft⟩)
    · exact hsome hnil
    · rw [hall s hs] at hleft
      cases hleft
  · rename_i h
    refine ⟨fun key => Json.get?_ofMembers key _, iff_of_true rfl ?_, rfl⟩
    by_contra hnone
    obtain ⟨hsome, hleft⟩ := not_or.1 hnone
    refine h (hdropped.2 ⟨hsome, fun s hs => ?_⟩)
    by_contra hs'
    exact hleft ⟨s, hs, Bool.eq_false_iff.2 hs'⟩

end Isolation

/-- Over a database that answers each statement for itself, and with elaborators that keep the
response keys of roots, the roots of a request are isolated from each other: a root has the same
member in the data as if it were the only root, and the problems of compiling each of the roots
alone are followed by the problems of running each of them alone. -/
theorem roots_are_isolated {e : Engine} {database : Sql.Database}
    (hm : e.mapping.KeepsRootKeys) (hi : e.introspection.KeepsRootKeys)
    (hfree : database.HistoryFree) (allow : Bool) {q : Query} {roots : List Select}
    (hroots : q.members = roots.map Select.toQuery)
    (hkeys : (roots.map Select.resultName).Nodup) {session : Sql.Session}
    (hsession : session.database = database) :
    let together : Response := ((e.respond allow q).run session).1
    (∀ r, Engine.read r = .ok q → r.allowIntrospection = allow →
      ((e.execute r).run session).1 = together) ∧
    (∀ s ∈ roots, together.data?.bind (Json.get? s.resultName) =
      (e.alone allow database s).data?.bind (Json.get? s.resultName)) ∧
    (∀ key, key ∉ roots.map Select.resultName → together.data?.bind (Json.get? key) = none) ∧
    (together.data?.isSome = true ↔
      roots = [] ∨ ∃ s ∈ roots, (e.alone allow database s).data?.isSome = true) ∧
    together.errors =
      roots.flatMap (e.compileProblems allow) ++ roots.flatMap (e.runProblems allow database) ∧
    ∀ s, (e.alone allow database s).errors =
      e.compileProblems allow s ++ e.runProblems allow database s := by
  have hone (s : Select) : s.toQuery.members = [s].map Select.toQuery := rfl
  have halone (s : Select) := respond_roots hm hi hfree allow (hone s)
    (rfl : (Sql.Session.start database).database = database)
  have hcompile (s : Select) : e.compileProblems allow s = (e.compiledRoot allow s).problems := by
    rw [compileProblems, (compileQuery_roots allow hm hi (hone s)).1, List.flatMap_singleton]
  have herrors (s : Select) : (e.alone allow database s).errors =
      (e.compiledRoot allow s).problems ++ (e.rootAnswer allow database s).problems := by
    have h := (halone s).2.2
    rwa [List.flatMap_singleton, List.flatMap_singleton] at h
  have hrun (s : Select) :
      e.runProblems allow database s = (e.rootAnswer allow database s).problems := by
    rw [runProblems, herrors, hcompile, List.drop_left]
  obtain ⟨hdata, hsome, htogether⟩ := respond_roots hm hi hfree allow hroots hsession
  have hunder (s : Select) : ∀ m ∈ (e.rootAnswer allow database s).members, m.1 = s.resultName :=
    (rootQuery_root allow hm hi s).2.1.underKey _ _ _
  refine ⟨fun r hread hallow => ?_, fun s hs => ?_, fun key hkey => ?_, ?_, ?_, fun s => ?_⟩
  · rw [execute_eq, hread, hallow]
  · rw [hdata, lastMember?_flatMap hkeys (fun s _ => hunder s) hs]
    have h := (halone s).1 s.resultName
    rw [List.flatMap_singleton] at h
    exact h.symm
  · rw [hdata, Json.lastMember?_eq_none.2]
    · rfl
    · rintro m hm rfl
      obtain ⟨s, hs, hms⟩ := List.mem_flatMap.1 hm
      exact hkey (List.mem_map.2 ⟨s, hs, (hunder s m hms).symm⟩)
  · rw [hsome]
    have hsingle (s : Select) : (e.alone allow database s).data?.isSome = true ↔
        (e.rootQuery allow s).isEmpty = false := by
      rw [alone, (halone s).2.1]
      simp
    simp only [hsingle]
  · rw [htogether, funext hcompile, funext hrun]
  · rw [herrors, hcompile, hrun]

end Engine

/-- Steps that wrap the child of a selection leave all else of it, and of the child what list
operations around it keep. -/
theorem Elaborator.exists_child_of_ofSteps {P : Query → Prop}
    (hfilter : ∀ p q, P q → P (.filter p q)) (hunique : ∀ q, P q → P (.unique q))
    (hlimit : ∀ n q, P q → P (.limit n q)) (horder : ∀ os q, P q → P (.orderBy os q))
    {steps : List Elaborator.Step} (h : ∀ step ∈ steps, ∀ query, step ≠ .replace query)
    {s : Select} {q : Query} (hs : P s.child) (hq : Elaborator.ofSteps steps s = .ok q) :
    ∃ child, P child ∧ q = { s with child }.toQuery := by
  suffices key : ∀ child, P child → wrapChild s steps child = .ok q →
      ∃ child, P child ∧ q = { s with child }.toQuery from key s.child hs hq
  clear hs hq
  induction steps with
  | nil =>
    rintro child hchild hq
    cases hq
    exact ⟨child, hchild, rfl⟩
  | cons step rest ih =>
    intro child hchild hq
    have hrest := ih fun other hother => h other (List.mem_cons_of_mem _ hother)
    have hoptional {given? : Option String} {wrap : Query → Query}
        (hwrap : ∀ q, P q → P (wrap q)) : P (if isGiven s given? then wrap child else child) := by
      split
      · exact hwrap child hchild
      · exact hchild
    cases step with
    | limit argument =>
      simp only [wrapChild] at hq
      split at hq
      · exact hrest _ hchild hq
      · split at hq
        · exact hrest _ (hlimit _ _ hchild) hq
        · cases hq
      · cases hq
    | limitTo count => exact hrest _ (hlimit _ _ hchild) hq
    | order by_ given? => exact hrest _ (hoptional (horder _)) hq
    | filter predicate given? => exact hrest _ (hoptional (hfilter _)) hq
    | unique given? => exact hrest _ (hoptional hunique) hq
    | fail text given? =>
      simp only [wrapChild] at hq
      split at hq
      · cases hq
      · exact hrest _ hchild hq
    | replace query => exact absurd rfl (h _ List.mem_cons_self query)

/-- Steps that wrap the child of a selection leave all else of it. -/
theorem Elaborator.eq_withChild_of_ofSteps {steps : List Elaborator.Step}
    (h : ∀ step ∈ steps, ∀ query, step ≠ .replace query) {s : Select} {q : Query}
    (hq : Elaborator.ofSteps steps s = .ok q) : ∃ child, q = { s with child }.toQuery := by
  obtain ⟨child, -, heq⟩ := exists_child_of_ofSteps (P := fun _ => True) (fun _ _ _ => trivial)
    (fun _ _ => trivial) (fun _ _ _ => trivial) (fun _ _ _ => trivial) h trivial hq
  exact ⟨child, heq⟩

theorem Elaborator.keepsKey_ofSteps {steps : List Elaborator.Step}
    (h : ∀ step ∈ steps, ∀ query, step ≠ .replace query) :
    KeepsKey (Elaborator.ofSteps steps) := fun s _ hq => by
  obtain ⟨child, rfl⟩ := eq_withChild_of_ofSteps h hq
  exact ⟨{ s with child }, rfl, rfl⟩

namespace Planets

/-- Planets in a table, of which a request may limit the number. -/
def registry : TableRegistry where
  schema := Schema.ofTypes [
    .object ⟨"Query", [⟨"planets", [⟨"limit", .nullable (.named "Int"), none⟩],
      .list (.named "Planet")⟩], []⟩,
    .object ⟨"Planet", [⟨"name", [], .named "String"⟩], []⟩] "Query"
  types := [
    .object ⟨"Query", [.root "planets" ()]⟩,
    .object ⟨"Planet", [.source (.column "name" ⟨"planet", "name"⟩ true false)]⟩]
  elaborators := [(("Query", "planets"), Elaborator.ofSteps [.limit "limit"])]

def engine : Engine := .ofMapping (.tables registry)

theorem keepsRootKeys : (Mapping.tables registry).KeepsRootKeys := by
  refine Mapping.keepsRootKeys (Registry.resolve_ne_delegated fun d hd => ?_) ?_
  · simp [registry, Registry.allFields] at hd
  · intro type name elaborator h
    cases List.mem_singleton.1 (Registry.mem_of_elaborator? h)
    exact Elaborator.keepsKey_ofSteps (by simp)

/-- A database that answers every statement with two planets. -/
def database : Sql.Database := fun _ _ => .ok ⟨["name"], [[.text "Mars"], [.text "Venus"]]⟩

/-- The names of a limited number of planets, a name, a field that is not there, and a question
about the schema. -/
def roots : List Select := [
  ⟨"planets", some "few", [⟨"limit", .int 1⟩], .field "name"⟩, ⟨"__typename", none, [], .empty⟩,
  ⟨"moons", none, [], .field "name"⟩,
  ⟨"__schema", none, [], .select "queryType" none [] (.field "name")⟩]

/-- The unknown field and all others leave each other alone. -/
theorem roots_leave_each_other_alone :
    database.HistoryFree ∧ (roots.map Select.resultName).Nodup ∧
      (∀ s ∈ roots, ((engine.respond true (.group (roots.map Select.toQuery))).run
          (.start database)).1.data?.bind (Json.get? s.resultName) =
        (engine.alone true database s).data?.bind (Json.get? s.resultName)) ∧
      ((engine.respond true (.group (roots.map Select.toQuery))).run (.start database)).1.errors =
        roots.flatMap (engine.compileProblems true) ++
          roots.flatMap (engine.runProblems true database) := by
  have hfree : database.HistoryFree := ⟨fun _ => .ok ⟨_, _⟩, fun _ _ => rfl⟩
  have hkeys : (roots.map Select.resultName).Nodup := by decide
  have hisolated := Engine.roots_are_isolated (e := engine) keepsRootKeys
    (Introspection.keepsRootKeys registry.schema) hfree true
    (q := .group (roots.map Select.toQuery)) rfl hkeys
    (rfl : (Sql.Session.start database).database = database)
  exact ⟨hfree, hkeys, hisolated.2.1, hisolated.2.2.2.2.1⟩

end Planets

end MappedQuery
