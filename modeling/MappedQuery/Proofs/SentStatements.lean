import MappedQuery.Engine
import MappedQuery.Proofs.CompiledRoots
import MappedQuery.Proofs.ObjectPositions

/-!
# Statements that are sent

The roots of a query over tables are planned before anything is read: a root that can be planned
sends the statement of its plan, and no other root sends any. What the database answers is all that
the data of the root are read from. No list operation, list, fragment or field below it comes back
to the database, as long as no other mapping is asked for a delegated field. So the statements of a
query are those of its plans, one for each planned root, and what goes on record is what the
database answers to them.
-/
namespace MappedQuery

open Sql

/-- A root selection and the plan of what stands below it. -/
structure PlannedRoot where
  select : Select
  plan : Plan

namespace PlannedRoot

def statement (root : PlannedRoot) : Statement := root.plan.statement

/-- What goes on record of the rows that answer the statement of a root. -/
def stats (root : PlannedRoot) (rows : ResultSet) : Stats :=
  ⟨root.select.toQuery.normalize, root.statement, rows.size, root.plan.fields⟩

end PlannedRoot

/-- The plan of a root selection of a field of the query type that has data, if there is one. -/
def Select.plan? (r : TableRegistry) (s : Select) : Option Plan :=
  if s.name = "__typename" then none
  else
    (r.openData? r.schema.queryType s.name).bind fun () =>
      ((Mapping.tables r).rootFieldType? r.schema.queryType s.name).bind fun type =>
        (Plan.build r s.name type s.child).toOption

namespace Query

/-- The root with its plan, if it is a selection that can be planned. -/
def plannedRoot? (r : TableRegistry) : Query → Option PlannedRoot
  | select name alias? bindings child =>
    let s : Select := ⟨name, alias?, bindings, child⟩
    (s.plan? r).map (PlannedRoot.mk s)
  | _ => none

/-- The roots of a query that can be planned. -/
def plannedRoots (r : TableRegistry) (q : Query) : List PlannedRoot :=
  q.members.filterMap (plannedRoot? r)

end Query

namespace Sql

/-- What goes on record of roots whose statements a database is sent after others: nothing of those
that it answers with an error. -/
def Database.record (database : Database) : List Statement → List PlannedRoot → List Stats
  | _, [] => []
  | sent, root :: rest =>
    let others := database.record (sent ++ [root.statement]) rest
    match database sent root.statement with
    | .ok rows => root.stats rows :: others
    | .error _ => others

theorem Database.record_append (database : Database) (sent : List Statement)
    (as bs : List PlannedRoot) :
    database.record sent (as ++ bs) =
      database.record sent as ++ database.record (sent ++ as.map (·.statement)) bs := by
  induction as generalizing sent with
  | nil => simp [record]
  | cons root as ih =>
    have hrest := ih (sent ++ [root.statement])
    rw [List.append_assoc, List.singleton_append] at hrest
    simp only [List.cons_append, record, hrest, List.map_cons]
    split <;> rfl

/-- The session after the statements of roots were sent. -/
def Session.afterRoots (s : Session) (roots : List PlannedRoot) : Session :=
  { s with
    sent := s.sent ++ roots.map (·.statement)
    stats := s.stats ++ s.database.record s.sent roots }

@[simp] theorem Session.afterRoots_nil (s : Session) : s.afterRoots [] = s := by
  simp [afterRoots, Database.record]

theorem Session.afterRoots_append (s : Session) (as bs : List PlannedRoot) :
    s.afterRoots (as ++ bs) = (s.afterRoots as).afterRoots bs := by
  simp [afterRoots, Database.record_append]

end Sql

/-- A computation that sends the statements of roots and does nothing else to the session. -/
def Sends (x : StateM Session α) (roots : List PlannedRoot) : Prop :=
  ∀ s, (x.run s).2 = s.afterRoots roots

namespace Sends

variable {α β : Type} {as bs : List PlannedRoot}

theorem pure (a : α) : Sends (Pure.pure a : StateM Session α) [] := fun s => s.afterRoots_nil.symm

theorem bind {x : StateM Session α} {f : α → StateM Session β} (hx : Sends x as)
    (hf : ∀ a, Sends (f a) bs) : Sends (x >>= f) (as ++ bs) := by
  intro s
  change ((f (x.run s).1).run (x.run s).2).2 = s.afterRoots (as ++ bs)
  rw [hf, hx, Session.afterRoots_append]

/-- What is done with the outcome sends nothing. -/
theorem then_pure {x : StateM Session α} (hx : Sends x as) (f : α → β) :
    Sends (do Pure.pure (f (← x))) as :=
  as.append_nil ▸ hx.bind fun a => .pure (f a)

end Sends

namespace Run

variable {α β : Type}

/-- A run that leaves the session as it is, whatever the outcome. -/
protected def Quiet (x : Run α) : Prop := Sends x.run []

theorem quiet_pure (a : α) : (pure a : Run α).Quiet := Sends.pure _

theorem quiet_throw (f : Fault) : (throw f : Run α).Quiet := Sends.pure _

@[simp] theorem ofExcept_ok (a : α) : ofExcept (.ok a) = pure a := rfl

theorem quiet_ofExcept (x : Except Fault α) : (ofExcept x).Quiet := by
  cases x with
  | error f => exact quiet_throw f
  | ok a => exact quiet_pure a

/-- What quiet runs follow on sends all that is sent. -/
theorem sends_bind {x : Run α} {f : α → Run β} {roots : List PlannedRoot}
    (hx : Sends x.run roots) (hf : ∀ a, (f a).Quiet) : Sends (x >>= f).run roots := by
  rw [← roots.append_nil]
  change Sends (x.run >>= ExceptT.bindCont f) (roots ++ [])
  refine hx.bind fun outcome => ?_
  cases outcome with
  | ok a => exact hf a
  | error f => exact Sends.pure _

theorem Quiet.bind {x : Run α} {f : α → Run β} (hx : x.Quiet) (hf : ∀ a, (f a).Quiet) :
    (x >>= f).Quiet :=
  sends_bind hx hf

theorem compositional_quiet : Compositional fun _ x => x.Quiet := ⟨quiet_ofExcept, Quiet.bind⟩

/-- The statement of a root is sent, and what the database answers goes on record. -/
theorem sends_send (root : PlannedRoot) :
    Sends (send root.select.toQuery.normalize root.plan.fields root.statement).run [root] := by
  intro s
  change ((ofExcept (s.database s.sent root.statement) >>= _ : Run _).run.run _).2 = _
  simp only [Session.afterRoots, Database.record]
  cases s.database s.sent root.statement with
  | ok rows => rfl
  | error f =>
    rw [List.append_nil]
    rfl

end Run

/-- Queries at positions at which a mapping is on its own: no field that they select there is
delegated, and the same holds of what is read below them. -/
structure Mapping.Alone (m : Mapping) (P : Query → Cursor → Prop) : Prop extends
    m.ReadsWithin P where
  undelegated : ∀ {name alias? bindings child c type}, P (.select name alias? bindings child) c →
    c.concreteType = .ok type → ∀ d, m.resolve c.path type name ≠ .delegated d
  component : ∀ {type field child c}, P (.component type field child) c →
    ∀ d, m.resolve c.path type field ≠ .delegated d

/-- A mapping that is on its own reads without sending anything: reading never comes to the answers
for delegated fields. -/
theorem Mapping.Alone.quiet_value {m : Mapping} {P : Query → Cursor → Prop} (h : m.Alone P)
    (answers : Answers m) (q : Query) {c : Cursor} (hq : P q c) : (q.value m answers c).Quiet := by
  refine Run.compositional_quiet.value h.toReadsWithin ?_ hq
  constructor
  case select => exact fun hresolve hq htype => absurd hresolve (h.undelegated hq htype _)
  case component => exact fun hresolve hq => absurd hresolve (h.component hq _)

/-- A mapping that delegates nothing is on its own everywhere. -/
theorem Mapping.alone_of_resolve {m : Mapping}
    (h : ∀ path type name d, m.resolve path type name ≠ .delegated d) :
    m.Alone fun _ _ => True := by
  constructor
  case toReadsWithin => exact .everywhere m
  case undelegated => exact fun _ _ d => h _ _ _ d
  case component => exact fun _ d => h _ _ _ d

namespace Cursor

variable {r : TableRegistry} {c e p : Cursor}

theorem table_of_mem_elements (he : e ∈ c.elements) (hc : ∃ x, c.focus = .table r x) :
    ∃ x, e.focus = .table r x := by
  obtain ⟨path, type, focus⟩ := c
  obtain ⟨extent, rfl⟩ := hc
  cases extent with
  | rows group =>
    obtain ⟨entity, -, rfl⟩ := List.mem_map.1 he
    exact ⟨_, rfl⟩
  | cell cell =>
    simp only [elements] at he
    split at he
    · cases he
    · cases List.mem_singleton.1 he
      exact ⟨_, rfl⟩

theorem table_of_present? (hp : c.present? = .ok (some p)) (hc : ∃ x, c.focus = .table r x) :
    ∃ x, p.focus = .table r x := by
  obtain ⟨extent, hfocus⟩ := hc
  obtain ⟨-, -, ⟨hsame, -⟩ | ⟨r', g, hrows, -, hpart⟩⟩ := present?_eq_some hp
  · exact ⟨extent, hsame.trans hfocus⟩
  · cases hfocus.symm.trans hrows
    exact ⟨_, hpart⟩

end Cursor

theorem Query.undelegated_of_mem {r : TableRegistry} {path : List String} {type : String} :
    ∀ {queries : List Query}, AllUndelegated r queries path type →
      ∀ q ∈ queries, q.Undelegated r path type
  | q :: rest, h, a, ha => by
    rw [AllUndelegated] at h
    rcases List.mem_cons.1 ha with rfl | ha
    · exact h.1
    · exact undelegated_of_mem h.2 a ha

/-- Where a query selects no delegated field, tables are on their own: positions have the types
that objects of the declared types can be read as. -/
theorem Mapping.alone_of_undelegated (r : TableRegistry) :
    (Mapping.tables r).Alone fun q c =>
      (∃ e, c.focus = .table r e) ∧ q.Undelegated r c.path c.type.underlying where
  present := fun {q c p} hq hp => by
    obtain ⟨htype, hpath, -⟩ := Cursor.present?_eq_some hp
    have hunderlying : c.type.underlying = p.type.underlying := by rw [htype]; rfl
    exact ⟨Cursor.table_of_present? hp hq.1, hpath ▸ hunderlying ▸ hq.2⟩
  element := fun {q c e} hq he => by
    obtain ⟨hpath, htype, -⟩ := Cursor.mem_elements he
    refine ⟨Cursor.table_of_mem_elements he hq.1, ?_⟩
    rw [hpath, htype, TypeRef.underlying_element]
    exact hq.2
  filter hq := by rwa [Query.Undelegated] at hq
  unique hq := by rwa [Query.Undelegated] at hq
  limit hq := by rwa [Query.Undelegated] at hq
  orderBy hq := by rwa [Query.Undelegated] at hq
  group hq q hmem := by
    rw [Query.Undelegated] at hq
    exact ⟨hq.1, Query.undelegated_of_mem hq.2 q hmem⟩
  narrow := fun {type child c narrowed} hq hnarrow => by
    unfold Cursor.narrow at hnarrow
    split at hnarrow
    · cases hnarrow
      rw [Query.Undelegated] at hq
      exact hq
    · cases hnarrow
  undelegated := fun {name alias? bindings child c type} hq htype d => by
    obtain ⟨⟨extent, hfocus⟩, hq⟩ := hq
    rw [Query.Undelegated] at hq
    exact Cursor.not_delegated (hq type (.inr (Cursor.canBe_of_concreteType hfocus htype))).1 d
  field := fun {name alias? bindings child c next} hq hnext => by
    obtain ⟨⟨extent, hfocus⟩, hq⟩ := hq
    rw [Query.Undelegated] at hq
    obtain ⟨type, f, g, extent', htype, -, hg, -, rfl⟩ := Cursor.field_eq_ok hfocus hnext
    exact ⟨⟨extent', rfl⟩, (hq type (.inr (Cursor.canBe_of_concreteType hfocus htype))).2 g hg⟩
  component hq := by
    rw [Query.Undelegated] at hq
    exact hq.2.elim

namespace Mapping

/-- A plan of what stands below a root is read at the rows that answer it without sending anything
else. -/
theorem quiet_residual {r : TableRegistry} {s : Select} {type : TypeRef} {plan : Plan}
    (htype : (Mapping.tables r).rootFieldType? r.schema.queryType s.name = some type)
    (hplan : Plan.build r s.name type s.child = .ok plan)
    (hq : s.toQuery.Undelegated r [] r.schema.queryType) (answers : Answers (.tables r))
    (rows : List Row) :
    (plan.residual.value (.tables r) answers
      ⟨[s.name], type, .table r (.rows ⟨plan.nodes, 0, rows⟩)⟩).Quiet := by
  obtain ⟨f, hf, rfl⟩ := Option.map_eq_some_iff.1 htype
  rw [show (Mapping.tables r).schema = r.schema from rfl, Option.or_self] at hf
  rw [Select.toQuery, Query.Undelegated] at hq
  have hchild := (hq r.schema.queryType (.inl rfl)).2 f hf
  obtain ⟨_, _, _, _, _, _, hplanned, _⟩ := Plan.build_planned hplan
  exact (alone_of_undelegated r).quiet_value answers _
    ⟨⟨_, rfl⟩, hplanned.undelegated hchild⟩

/-- A root over tables sends the statement of its plan, and nothing if it has none. -/
theorem sends_readRoot {r : TableRegistry} {s : Select} (hname : s.name ≠ "__typename")
    (hq : s.toQuery.Undelegated r [] r.schema.queryType) :
    Sends ((Mapping.tables r).readRoot r.schema.queryType s).run
      ((s.plan? r).map (PlannedRoot.mk s)).toList := by
  rw [readRoot, Select.plan?, if_neg hname]
  unfold openRoot openType
  dsimp only
  cases hdata : r.openData? r.schema.queryType s.name with
  | none => exact Run.quiet_throw _
  | some data =>
    cases htype : (Mapping.tables r).rootFieldType? r.schema.queryType s.name with
    | none => exact Run.quiet_throw _
    | some type =>
      simp only [Run.ofExcept_ok, pure_bind, bind_assoc, Option.bind_some]
      cases hplan : Plan.build r s.name type s.child with
      | error f => exact Run.quiet_throw f
      | ok plan =>
        rw [Run.ofExcept_ok, pure_bind]
        exact Run.sends_bind (Run.sends_send ⟨s, plan⟩) fun rows =>
          quiet_residual htype hplan hq _ rows.rows

/-- A root over a document is read without a statement, unless fields are delegated. -/
theorem quiet_readRoot {i : DocumentRegistry}
    (hnone : ∀ path type name d, i.resolve path type name ≠ .delegated d) (type : String)
    (s : Select) : ((Mapping.documents i).readRoot type s).Quiet := by
  rw [readRoot]
  refine Run.Quiet.bind ?_ fun opened =>
    (alone_of_resolve (m := .documents i) hnone).quiet_value _ opened.1 trivial
  unfold openRoot
  dsimp only
  split
  · exact Run.quiet_throw _
  · exact Run.compositional_quiet.after fun fieldType _ => Run.quiet_pure _

theorem quiet_answerRoot {i : DocumentRegistry}
    (hnone : ∀ path type name d, i.resolve path type name ≠ .delegated d) (q : Query) :
    Sends ((Mapping.documents i).answerRoot q) [] := by
  unfold answerRoot
  split
  · dsimp only
    split
    · exact .pure _
    · exact .then_pure (quiet_readRoot hnone _ _) _
  · split
    · refine .then_pure ?_ _
      unfold readDelegatedRoot
      rw [delegateTarget?_eq_none (m := .documents i) (hnone _ _ _)]
      exact Run.quiet_throw _
    · exact .pure _
  · exact .pure _

theorem quiet_answerRoots {i : DocumentRegistry}
    (hnone : ∀ path type name d, i.resolve path type name ≠ .delegated d) (qs : List Query) :
    Sends ((Mapping.documents i).answerRoots qs) [] := by
  induction qs with
  | nil => exact .pure _
  | cons q rest ih => exact (quiet_answerRoot hnone q).bind fun first => ih.then_pure _

/-- A root over tables sends the statement of its plan if it is a selection that has one. -/
theorem sends_answerRoot {r : TableRegistry} {q : Query}
    (hq : q.Undelegated r [] r.schema.queryType) :
    Sends ((Mapping.tables r).answerRoot q) (q.plannedRoot? r).toList := by
  cases q with
  | select name alias? bindings child =>
    rw [answerRoot, Query.plannedRoot?]
    split
    · rename_i hname
      rw [Select.plan?, if_pos hname]
      exact .pure _
    · rename_i hname
      exact .then_pure (sends_readRoot hname hq) _
  | component type field child =>
    rw [Query.Undelegated] at hq
    exact hq.elim
  | filter _ _ | unique _ | group _ | narrow _ _ | limit _ _ | orderBy _ _ | introspect _ | empty =>
    exact .pure _

end Mapping

namespace Query

theorem sends_answerBranch {r : TableRegistry} {i : DocumentRegistry}
    (hnone : ∀ path type name d, i.resolve path type name ≠ .delegated d) {q : Query}
    (hmember : q.members = [q]) (hq : q.Undelegated r [] r.schema.queryType) :
    Sends (q.answerBranch (.tables r) (.documents i)) (q.plannedRoot? r).toList := by
  unfold answerBranch
  split
  · exact Mapping.quiet_answerRoots hnone _
  · rw [hmember]
    have hroot := (Mapping.sends_answerRoot hq).bind fun first =>
      Sends.pure (first.append .empty)
    rwa [List.append_nil] at hroot

theorem sends_answerBranches {r : TableRegistry} {i : DocumentRegistry}
    (hnone : ∀ path type name d, i.resolve path type name ≠ .delegated d) {qs : List Query}
    (hqs : ∀ q ∈ qs, q.members = [q] ∧ q.Undelegated r [] r.schema.queryType) :
    Sends (answerBranches (.tables r) (.documents i) qs) (qs.filterMap (plannedRoot? r)) := by
  induction qs with
  | nil => exact .pure _
  | cons q rest ih =>
    obtain ⟨hmember, hq⟩ := hqs q List.mem_cons_self
    have hrest := ih fun a ha => hqs a (List.mem_cons_of_mem q ha)
    have hall := (sends_answerBranch hnone hmember hq).bind fun first => hrest.then_pure first.append
    have hroots : (q :: rest).filterMap (plannedRoot? r) =
        (q.plannedRoot? r).toList ++ rest.filterMap (plannedRoot? r) := by
      rw [List.filterMap_cons]
      cases q.plannedRoot? r <;> rfl
    rw [hroots]
    exact hall

end Query

/-- Where no delegated field is selected, a query over tables sends one statement for each of its
roots that can be planned, in their order, and none for any other root, whatever the database
answers and however much is read of the answers. For each statement that is answered without an
error it is put on record, in the same order, which query it was sent for, in normal form, which
statement it was, how many rows answered it and how many leaf fields they are for; a statement that
fails leaves no record. -/
theorem Engine.sends_one_statement_for_each_planned_root (r : TableRegistry) {q : Query}
    (hq : q.Undelegated r [] r.schema.queryType) (s : Session) :
    let after := (((Engine.ofMapping (.tables r)).run q).run s).2
    after.sent = s.sent ++ (q.plannedRoots r).map (·.statement) ∧
    after.stats = s.stats ++ s.database.record s.sent (q.plannedRoots r) ∧
    after.database = s.database := by
  intro after
  have hmembers : ∀ a ∈ q.members, a.members = [a] ∧ a.Undelegated r [] r.schema.queryType := by
    refine fun a ha => ⟨Query.members_of_mem_members ha, ?_⟩
    refine Query.of_mem_members (P := (·.Undelegated r [] r.schema.queryType))
      (fun queries hgroup => ?_) hq ha
    rw [Query.Undelegated] at hgroup
    exact Query.undelegated_of_mem hgroup
  have hnone := Introspection.resolve_ne_delegated r.schema
  have hsends := (Query.sends_answerBranches hnone hmembers).then_pure fun result =>
    (Outcome.attach (Json.ofMembers result.members) result.problems)
  have hafter : after = s.afterRoots (q.plannedRoots r) := hsends s
  rw [hafter]
  exact ⟨rfl, rfl, rfl⟩

namespace Theaters

/-- Plays with their acts, halls, and masks that nothing tells apart. -/
def registry : TableRegistry where
  schema := Schema.ofTypes [
    .object ⟨"Query", [⟨"plays", [], .list (.named "Play")⟩, ⟨"halls", [], .list (.named "Hall")⟩,
      ⟨"masks", [], .list (.named "Mask")⟩], []⟩,
    .object ⟨"Play", [⟨"title", [], .named "String"⟩, ⟨"acts", [], .list (.named "Act")⟩], []⟩,
    .object ⟨"Act", [⟨"number", [], .named "Int"⟩], []⟩,
    .object ⟨"Hall", [⟨"seats", [], .named "Int"⟩], []⟩,
    .object ⟨"Mask", [⟨"color", [], .named "String"⟩], []⟩] "Query"
  types := [
    .object ⟨"Query", [.root "plays" (), .root "halls" (), .root "masks" ()]⟩,
    .object ⟨"Play", [.source (.column "title" ⟨"play", "title"⟩ true false),
      .source (.joined "acts" [⟨⟨"play", "title"⟩, ⟨"act", "play"⟩⟩])]⟩,
    .object ⟨"Act", [.source (.column "number" ⟨"act", "number"⟩ true false)]⟩,
    .object ⟨"Hall", [.source (.column "seats" ⟨"hall", "seats"⟩ true false)]⟩,
    .object ⟨"Mask", [.source (.column "color" ⟨"mask", "color"⟩ false false)]⟩]
  elaborators := []

def query : Query :=
  .group [
    .select "plays" none [] (.group [.field "title", .field "__typename",
      .select "acts" none [] (.field "number")]),
    .field "__typename",
    .select "masks" none [] (.field "color"),
    .introspect (.select "__schema" none [] (.select "queryType" none [] (.field "name"))),
    .select "halls" (some "large") [] (.limit 2 (.field "seats"))]

/-- A database that fails at first and then answers with three halls. -/
def database : Database := fun earlier _ =>
  if earlier.isEmpty then .error (.connector (.conversion "not reachable"))
  else .ok ⟨["seats"], [[.integer 90], [.integer 400], [.integer 60]]⟩

theorem query_undelegated : query.Undelegated registry [] registry.schema.queryType := by
  have hnone (path : List String) (type name : String) (d : Delegate Mapping) :
      registry.fieldMapping? path type name ≠ some (.delegate d) := by
    intro h
    have hd := Registry.mem_allFields_of_fieldMapping? h
    simp [registry, Registry.allFields] at hd
  simp [query, Query.field, Select.plain, Select.toQuery, Query.Undelegated, Query.AllUndelegated,
    hnone]

/-- The session after the query. -/
def after : Session := (((Engine.ofMapping (.tables registry)).run query).run (.start database)).2

/-- Plays and halls are asked for once each, masks not at all, and only the halls are answered. -/
theorem plays_and_halls_are_asked_for :
    query.Undelegated registry [] registry.schema.queryType ∧
    after.sent.map (fun statement => statement.table?.map (·.name)) = [some "play", some "hall"] ∧
    after.stats.map (fun stats => (stats.query, stats.statement.table?.map (·.name), stats.rows)) =
      [((Query.select "halls" (some "large") [] (.limit 2 (.field "seats"))).normalize,
        some "hall", 3)] := by
  obtain ⟨hsent, hstats, -⟩ := Engine.sends_one_statement_for_each_planned_root registry
    query_undelegated (.start database)
  refine ⟨query_undelegated, ?_, ?_⟩
  · rw [after, hsent]
    rfl
  · rw [after, hstats]
    rfl

end Theaters

end MappedQuery
