import Mathlib
import MappedQuery.Proofs.IntrospectionRoots
import MappedQuery.Proofs.RootIsolation

/-!
# Answers about a schema

A request may ask for nothing but types: by the roots of introspection and by names of types, which
may stand inside fragments. If it compiles without problems, the roots of introspection are answered
by what they select of descriptions, and the names are that of the query type. A fragment on an
interface of the query type, or on a union that it is a member of, passes the checks, but it is left
in the compiled query, and no fragment is read at the root: what stands in it is missing from the
data, and the fragment is reported.
-/
namespace MappedQuery

/-- Whether some type declares a field of a name. -/
def Schema.declares (s : Schema) (name : String) : Bool :=
  s.types.any fun d => d.fields.any (·.name = name)

theorem Schema.field?_of_not_declares {s : Schema} {name : String} (h : s.declares name = false)
    (type : String) : s.field? type name = none := by
  cases hf : s.field? type name with
  | none => rfl
  | some f =>
    obtain ⟨u, -, hown⟩ := reaches_of_field? hf
    obtain ⟨d, hd, hfield⟩ := Option.bind_eq_some_iff.1 hown
    have hname := List.find?_some hfield
    have hdeclared : s.declares name = true := List.any_eq_true.2 ⟨d, List.mem_of_find?_eq_some hd,
      List.any_eq_true.2 ⟨f, List.mem_of_find?_eq_some hfield, hname⟩⟩
    rw [h] at hdeclared
    cases hdeclared

namespace Query

mutual

/-- Whether a query selects nothing but names of types and fields that no type declares. -/
def selectsNames (s : Schema) : Query → Bool
  | .select name _ _ _ => name = "__typename" || !s.declares name
  | .narrow _ child => child.selectsNames s
  | .group queries => allSelectNames s queries
  | .empty => true
  | .filter .. | .unique _ | .limit .. | .orderBy .. | .component .. | .introspect _ => false

def allSelectNames (s : Schema) : List Query → Bool
  | [] => true
  | q :: rest => q.selectsNames s && allSelectNames s rest

end

mutual

/-- Whether a query asks for nothing but names of types. -/
def asksNames : Query → Bool
  | .select name _ _ _ => name = "__typename"
  | .narrow _ child => child.asksNames
  | .group queries => allAskNames queries
  | .empty => true
  | .filter .. | .unique _ | .limit .. | .orderBy .. | .component .. | .introspect _ => false

def allAskNames : List Query → Bool
  | [] => true
  | q :: rest => q.asksNames && allAskNames rest

end

mutual

/-- Whether no fragment of a query leads away from a type. -/
def staysOn (type : String) : Query → Bool
  | .narrow condition child => condition = type && child.staysOn type
  | .group queries => allStayOn type queries
  | .select .. | .empty | .filter .. | .unique _ | .limit .. | .orderBy .. | .component ..
  | .introspect _ => true

def allStayOn (type : String) : List Query → Bool
  | [] => true
  | q :: rest => q.staysOn type && allStayOn type rest

end

theorem allAskNames_iff {qs : List Query} :
    allAskNames qs = true ↔ ∀ q ∈ qs, q.asksNames = true := by
  induction qs with
  | nil => exact ⟨fun _ q hq => absurd hq List.not_mem_nil, fun _ => rfl⟩
  | cons q rest ih =>
    rw [allAskNames, Bool.and_eq_true, ih]
    exact ⟨fun h => List.forall_mem_cons.2 h, fun h => List.forall_mem_cons.1 h⟩

theorem asksNames_group (qs : List Query) :
    (group qs).asksNames = true ↔ ∀ q ∈ qs, q.asksNames = true := by
  rw [asksNames]
  exact allAskNames_iff

mutual

/-- The roots of a query for names are selections of a name, and fragments. -/
theorem root_of_asksNames : ∀ {q a : Query}, q.asksNames = true → a ∈ q.members →
    (∃ alias? bindings child, a = .select "__typename" alias? bindings child) ∨
      ∃ condition child, a = .narrow condition child
  | .select name alias? bindings child, a, h, ha => by
    rw [asksNames] at h
    obtain rfl := List.mem_singleton.1 ha
    obtain rfl := of_decide_eq_true h
    exact .inl ⟨_, _, _, rfl⟩
  | .narrow condition child, a, h, ha => by
    rw [asksNames] at h
    obtain rfl := List.mem_singleton.1 ha
    exact .inr ⟨_, _, rfl⟩
  | .group queries, a, h, ha => by
    rw [asksNames] at h
    exact root_of_allAskNames h ha
  | .empty, a, h, ha => by
    rw [members] at ha
    cases ha
  | .filter .., a, h, ha | .unique _, a, h, ha | .limit .., a, h, ha | .orderBy .., a, h, ha
  | .component .., a, h, ha | .introspect _, a, h, ha => by
    rw [asksNames] at h
    cases h

theorem root_of_allAskNames : ∀ {qs : List Query} {a : Query}, allAskNames qs = true →
    a ∈ membersAll qs → (∃ alias? bindings child, a = .select "__typename" alias? bindings child) ∨
      ∃ condition child, a = .narrow condition child
  | [], a, h, ha => by
    rw [membersAll] at ha
    cases ha
  | q :: rest, a, h, ha => by
    rw [allAskNames, Bool.and_eq_true] at h
    rw [membersAll, List.mem_append] at ha
    exact ha.elim (root_of_asksNames h.1) (root_of_allAskNames h.2)

end

mutual

/-- Names of types are not delegated. -/
theorem delegate_of_asksNames : ∀ {q : Query}, q.asksNames = true → ∀ (m : Mapping) (type : String)
    (path : List String), q.delegate m type path = q
  | .select name alias? bindings child, h, m, type, path => by
    rw [asksNames] at h
    rw [delegate, if_pos (of_decide_eq_true h)]
  | .narrow condition child, h, m, type, path => by
    rw [asksNames] at h
    rw [delegate, delegate_of_asksNames h]
  | .group queries, h, m, type, path => by
    rw [asksNames] at h
    rw [delegate, delegateAll_of_allAskNames h]
  | .empty, h, m, type, path => by rw [delegate]
  | .filter .., h, m, type, path | .unique _, h, m, type, path | .limit .., h, m, type, path
  | .orderBy .., h, m, type, path | .component .., h, m, type, path
  | .introspect _, h, m, type, path => by
    rw [asksNames] at h
    cases h

theorem delegateAll_of_allAskNames : ∀ {qs : List Query}, allAskNames qs = true →
    ∀ (m : Mapping) (type : String) (path : List String), delegateAll m type path qs = qs
  | [], h, m, type, path => by rw [delegateAll]
  | q :: rest, h, m, type, path => by
    rw [allAskNames, Bool.and_eq_true] at h
    rw [delegateAll, delegate_of_asksNames h.1, delegateAll_of_allAskNames h.2]

end

/-- The members that a root for the name of a type adds; a fragment adds none. -/
def nameMembers (type : String) : Query → Members
  | .select name alias? _ _ => [(alias?.getD name, .string type)]
  | _ => []

/-- What is left of a query for names shows the same names, and no fragment is left if none leads
away from the type. -/
structure LeavesNames (s : Schema) (type : String) (q q' : Query) : Prop where
  asks : q'.asksNames = true
  members : ∀ doc, q'.members.flatMap (nameMembers type) = q.shownMembers s type doc
  stays : (∀ a ∈ q'.members, ∃ sel : Select, a = sel.toQuery) ↔ q.staysOn type = true

mutual

theorem leavesNames_elaborate {m : Mapping} : ∀ {q q' : Query} {type : String}
    {path : List String}, q.selectsNames m.schema = true → q.elaborate m type path = .success q' →
      LeavesNames m.schema type q q'
  | .select name alias? bindings child, q', type, path, hq, h => by
    rw [selectsNames, Bool.or_eq_true, decide_eq_true_eq, Bool.not_eq_true'] at hq
    have hname : name = "__typename" := by
      by_contra hother
      rw [elaborate, if_neg hother,
        Schema.field?_of_not_declares (hq.resolve_left hother) type] at h
      exact absurd h dropped_ne_success
    rw [elaborate, if_pos hname] at h
    split at h
    · obtain rfl := Option.some.inj (congrArg Outcome.value? h)
      refine ⟨by rw [asksNames]; exact decide_eq_true hname, fun doc => ?_, ?_⟩
      · rw [shownMembers, if_pos hname]
        rfl
      · rw [staysOn]
        refine iff_of_true (fun a ha => ?_) rfl
        exact ⟨⟨name, alias?, bindings, child⟩, List.mem_singleton.1 ha⟩
    · exact absurd h dropped_ne_success
  | .narrow condition child, q', type, path, hq, h => by
    rw [selectsNames] at hq
    rw [elaborate] at h
    split at h
    · rename_i hcondition
      obtain ⟨hasks, hmembers, hstays⟩ := leavesNames_elaborate hq h
      refine ⟨hasks, fun doc => ?_, ?_⟩
      · rw [hmembers doc, shownMembers, if_pos hcondition]
      · rw [hstays, staysOn, decide_eq_true hcondition, Bool.true_and]
    · rename_i hother
      split at h
      · exact absurd h dropped_ne_success
      · split at h
        · obtain ⟨child', hchild, rfl⟩ := Outcome.map_eq_success.1 h
          refine ⟨?_, fun doc => ?_, ?_⟩
          · rw [asksNames]
            exact (leavesNames_elaborate hq hchild).asks
          · rw [shownMembers, if_neg hother]
            rfl
          · rw [staysOn, decide_eq_false hother, Bool.false_and]
            refine iff_of_false (fun h => ?_) Bool.false_ne_true
            obtain ⟨sel, hsel⟩ := h _ (List.mem_singleton_self _)
            cases hsel
        · exact absurd h dropped_ne_success
  | .group queries, q', type, path, hq, h => by
    rw [selectsNames] at hq
    rw [elaborate] at h
    obtain ⟨qs, hqs, rfl⟩ := Outcome.map_eq_success.1 h
    obtain ⟨hasks, hmembers, hstays⟩ :=
      leavesNames_elaborateAll hq (Outcome.collect_eq_success.1 hqs)
    refine ⟨?_, fun doc => ?_, ?_⟩
    · exact of_grouped (P := fun q => q.asksNames = true) rfl asksNames_group hasks
    · rw [members_grouped, hmembers doc, shownMembers]
    · rw [members_grouped, hstays, staysOn]
  | .empty, q', type, path, hq, h => by
    rw [elaborate] at h
    · obtain rfl := Option.some.inj (congrArg Outcome.value? h)
      exact ⟨rfl, fun _ => rfl, iff_of_true (fun a ha => absurd ha List.not_mem_nil) rfl⟩
    all_goals simp
  | .filter .., q', type, path, hq, h | .unique _, q', type, path, hq, h
  | .limit .., q', type, path, hq, h | .orderBy .., q', type, path, hq, h
  | .component .., q', type, path, hq, h | .introspect _, q', type, path, hq, h => by
    rw [selectsNames] at hq
    cases hq

theorem leavesNames_elaborateAll {m : Mapping} : ∀ {qs qs' : List Query} {type : String}
    {path : List String}, allSelectNames m.schema qs = true →
      List.Forall₂ (fun o q => o = .success q) (elaborateAll m type path qs) qs' →
        (∀ q ∈ qs', q.asksNames = true) ∧
          (∀ doc, (membersAll qs').flatMap (nameMembers type) =
            allShownMembers m.schema type qs doc) ∧
          ((∀ a ∈ membersAll qs', ∃ sel : Select, a = sel.toQuery) ↔ allStayOn type qs = true)
  | [], qs', type, path, hqs, h => by
    rw [elaborateAll] at h
    cases h
    exact ⟨nofun, fun _ => rfl, iff_of_true (fun a ha => absurd ha List.not_mem_nil) rfl⟩
  | q :: rest, qs', type, path, hqs, h => by
    rw [allSelectNames, Bool.and_eq_true] at hqs
    rw [elaborateAll] at h
    cases h with
    | cons hfirst hrest =>
      have hq := leavesNames_elaborate hqs.1 hfirst
      obtain ⟨hasks, hmembers, hstays⟩ := leavesNames_elaborateAll hqs.2 hrest
      refine ⟨List.forall_mem_cons.2 ⟨hq.asks, hasks⟩, fun doc => ?_, ?_⟩
      · rw [membersAll, List.flatMap_append, hq.members doc, hmembers doc, allShownMembers]
      · rw [membersAll, allStayOn, Bool.and_eq_true, ← hq.stays, ← hstays, List.forall_mem_append]

end

/-- Whether a root of a request is one of introspection or asks for names of types, as far as its
fields are declared. -/
def asksTypes (s : Schema) (root : Query) : Bool :=
  root.isIntrospectionRoot || root.selectsNames s

end Query

/-- What a root of a request for types adds to the data: the answer of introspection, of the type
that its field has, or names of the query type. -/
inductive RootAnswer (s : Schema) : Query → Members → Prop
  | introspected {root : Select} {doc : Json} (hanswers : Introspection.Answers s root doc)
    (htyped : Query.MemberTyped Introspection.schema "Query" root doc) :
    RootAnswer s root.toQuery [(root.resultName, doc)]
  | names {root : Query} (hroot : root.selectsNames s = true) :
    RootAnswer s root (root.shownMembers s s.queryType .null)

namespace Query

section Roots

variable (m introspection : Mapping)

/-- A run that gives a result and leaves the session as it was. -/
theorem run_eq_of_returns {α : Type} {x : Run α} {a : α} (h : x.Returns a) : x.run = pure (.ok a) :=
  funext h

theorem answerBranches_introspect {left : Select} (hname : left.name ≠ "__typename") {doc : Json}
    (h : (introspection.readRoot introspection.schema.queryType left).Returns doc) :
    answerBranches m introspection [.introspect left.toQuery] =
      pure (.ofMember left.resultName doc) := by
  have hroot : introspection.answerRoot left.toQuery = pure (.ofMember left.resultName doc) := by
    rw [Select.toQuery, Mapping.answerRoot]
    rw [if_neg hname, run_eq_of_returns h]
    rfl
  have hbranch : answerBranches m introspection [.introspect left.toQuery] = (do
      let first ← introspection.answerRoot left.toQuery
      pure ((first.append .empty).append .empty)) := rfl
  rw [hbranch, hroot]
  rfl

/-- Roots for names are answered with names; a fragment that is left is a problem. -/
theorem answerBranches_names {as : List Query}
    (h : ∀ a ∈ as, (∃ alias? bindings child, a = .select "__typename" alias? bindings child) ∨
      ∃ condition child, a = .narrow condition child) :
    ∃ problems, answerBranches m introspection as =
        pure ⟨as.flatMap (nameMembers m.schema.queryType), problems⟩ ∧
      (problems = [] ↔ ∀ a ∈ as, ∃ sel : Select, a = sel.toQuery) := by
  induction as with
  | nil => exact ⟨[], rfl, iff_of_true rfl nofun⟩
  | cons a rest ih =>
    obtain ⟨problems, hrest, hproblems⟩ := ih fun b hb => h b (List.mem_cons_of_mem _ hb)
    have hstep : answerBranches m introspection (a :: rest) = (do
        let first ← a.answerBranch m introspection
        let others ← answerBranches m introspection rest
        pure (first.append others)) := rfl
    rw [hstep, hrest]
    rcases h a List.mem_cons_self with ⟨alias?, bindings, child, rfl⟩ | ⟨condition, child, rfl⟩
    · refine ⟨problems, rfl, hproblems.trans ?_⟩
      rw [List.forall_mem_cons]
      exact (and_iff_right ⟨⟨"__typename", alias?, bindings, child⟩, rfl⟩).symm
    · refine ⟨_ :: problems, rfl, iff_of_false (List.cons_ne_nil _ _) fun hall => ?_⟩
      obtain ⟨sel, hsel⟩ := hall _ List.mem_cons_self
      cases hsel

variable {m}

/-- A root of a request for types that is compiled without problems is answered; only fragments
that lead away from the query type are reported. -/
structure IsAnswered (m : Mapping) (root left : Query) (ms : Members) (problems : List Problem) :
    Prop where
  answer : RootAnswer m.schema root ms
  run : answerBranches m (Introspection.mapping m.schema) left.members = pure ⟨ms, problems⟩
  problems_iff : problems = [] ↔ root.staysOn m.schema.queryType = true
  undelegated : ∀ a ∈ left.members, a.delegate m m.schema.queryType [] = a

theorem exists_isAnswered (hacyclic : m.schema.Acyclic) (hs : (m.schema.types.map (·.name)).Nodup)
    {allow : Bool} {root left : Query} (hwritten : root.isWritten = true)
    (hroot : root.asksTypes m.schema = true)
    (h : root.elaborateRoot m (Introspection.mapping m.schema) allow = .success left) :
    ∃ ms problems, IsAnswered m root left ms problems := by
  rw [elaborateRoot] at h
  split at h
  · rename_i hintrospection
    split at h
    · obtain ⟨q, hq, rfl⟩ := Outcome.map_eq_success.1 h
      cases root with
      | select name alias? bindings child =>
        obtain ⟨kept, doc, rfl, hanswered⟩ := Introspection.exists_isAnswered hacyclic hs
          ⟨name, alias?, bindings, child⟩ hintrospection hwritten hq
        refine ⟨_, _, .introspected hanswered.answers hanswered.typed,
          (answerBranches_introspect m _ hanswered.notTypename hanswered.returns).trans ?_,
          iff_of_true rfl rfl, fun a ha => ?_⟩
        · rw [hanswered.key]
          rfl
        · rw [List.mem_singleton.1 ha, delegate]
      | _ => cases hintrospection
    · exact absurd h dropped_ne_success
  · rename_i hother
    have hnames : root.selectsNames m.schema = true := by
      rw [asksTypes, Bool.or_eq_true] at hroot
      exact hroot.resolve_left hother
    have hleft := leavesNames_elaborate hnames h
    obtain ⟨problems, hrun, hproblems⟩ := answerBranches_names m (Introspection.mapping m.schema)
      fun a ha => root_of_asksNames hleft.asks ha
    refine ⟨_, problems, .names hnames, ?_, hproblems.trans hleft.stays, fun a ha => ?_⟩
    · rw [hrun, hleft.members .null]
    · exact delegate_of_asksNames (of_mem_members (P := fun q => q.asksNames = true)
        (fun qs => (asksNames_group qs).1) hleft.asks ha) _ _ _

/-- The roots of a request are answered one after the other. -/
theorem exists_answers (hacyclic : m.schema.Acyclic) (hs : (m.schema.types.map (·.name)).Nodup)
    {allow : Bool} {roots left : List Query} (hwritten : ∀ root ∈ roots, root.isWritten = true)
    (hroots : ∀ root ∈ roots, root.asksTypes m.schema = true)
    (h : List.Forall₂ (fun o q => o = .success q)
      (roots.map (elaborateRoot m (Introspection.mapping m.schema) allow)) left) :
    ∃ answers problems, List.Forall₂ (RootAnswer m.schema) roots answers ∧
      answerBranches m (Introspection.mapping m.schema) (membersAll left) =
        pure ⟨answers.flatten, problems⟩ ∧
      (problems = [] ↔ ∀ root ∈ roots, root.staysOn m.schema.queryType = true) ∧
      ∀ a ∈ membersAll left, a.delegate m m.schema.queryType [] = a := by
  induction roots generalizing left with
  | nil =>
    cases h
    exact ⟨[], [], .nil, rfl, iff_of_true rfl nofun, nofun⟩
  | cons root rest ih =>
    rw [List.map_cons] at h
    cases h with
    | cons hfirst hrest =>
      obtain ⟨ms, problems, hroot⟩ := exists_isAnswered hacyclic hs
        (hwritten root List.mem_cons_self) (hroots root List.mem_cons_self) hfirst
      obtain ⟨answers, others, hanswers, hrun, hothers, hundelegated⟩ := ih
        (fun a ha => hwritten a (List.mem_cons_of_mem _ ha))
        (fun a ha => hroots a (List.mem_cons_of_mem _ ha)) hrest
      refine ⟨ms :: answers, problems ++ others, .cons hroot.answer hanswers, ?_, ?_, ?_⟩
      · rw [membersAll, answerBranches_append, hroot.run, hrun]
        rfl
      · rw [List.append_eq_nil_iff, hroot.problems_iff, hothers, List.forall_mem_cons]
      · rw [membersAll]
        exact List.forall_mem_append.2 ⟨hroot.undelegated, hundelegated⟩

end Roots

theorem isSome_elaborateRoot (m introspection : Mapping) (allow : Bool) (root : Query) :
    (root.elaborateRoot m introspection allow).value?.isSome = true := by
  unfold elaborateRoot
  split
  · split
    · rw [Outcome.map, Option.isSome_map]
      exact isSome_elaborate _ _ _ root
    · rfl
  · exact isSome_elaborate _ _ _ root

end Query

/-- The roots of a request. -/
def EngineRequest.roots (r : EngineRequest) : List Query :=
  match Engine.read r with
  | .ok q => q.members
  | .error _ => []

/-- Requests for types are answered by name: a root of introspection with what it selects of a
description of the schema or of the one type of the name that it asks for, of the type that the
root has in the schema of introspection. Such a request reports nothing if no fragment leads away
from the query type, and only then. -/
theorem Engine.types_are_answered {m : Mapping} {text : String}
    (hm : Schema.parse text = .ok m.schema) (hacyclic : m.schema.Acyclic) {r : EngineRequest}
    (hroots : ∀ root ∈ r.roots, root.asksTypes m.schema = true)
    (h : ((Engine.ofMapping m).compile r).problems = []) :
    ∃ q answers problems, (Engine.ofMapping m).compile r = .success q ∧
      List.Forall₂ (RootAnswer m.schema) r.roots answers ∧
      (∀ session, ((Engine.ofMapping m).run q).run session =
        (.attach (Json.ofMembers answers.flatten) problems, session)) ∧
      (problems = [] ↔ ∀ root ∈ r.roots, root.staysOn m.schema.queryType = true) := by
  unfold EngineRequest.roots at hroots ⊢
  cases hread : Engine.read r with
  | error f =>
    rw [Engine.compile, hread] at h
    cases h
  | ok q₀ =>
    have hcompile : (Engine.ofMapping m).compile r = ((Outcome.collect (q₀.members.map
        (Query.elaborateRoot m (Introspection.mapping m.schema) r.allowIntrospection))).map
          Query.grouped).map (·.delegateRoots m) := by
      rw [Engine.compile, hread]
      rfl
    rw [hcompile] at h ⊢
    rw [hread] at hroots
    obtain ⟨left, hleft⟩ := Outcome.exists_collect_eq_success (fun o ho => by
      obtain ⟨root, -, rfl⟩ := List.mem_map.1 ho
      exact Query.isSome_elaborateRoot _ _ _ root) h
    obtain ⟨answers, problems, hanswers, hrun, hproblems, hundelegated⟩ :=
      Query.exists_answers hacyclic (Schema.nodup_names_of_parse hm)
        (fun root => Query.isWritten_of_mem_members (Engine.isWritten_read hread)) hroots
        (Outcome.collect_eq_success.1 hleft)
    have hmembers : (Query.delegateRoots m (Query.grouped left)).members =
        Query.membersAll left := by
      rw [Query.delegateRoots, Query.members_grouped, Query.members_grouped,
        List.map_congr_left hundelegated, List.map_id', Query.membersAll_membersAll]
    rw [hleft]
    refine ⟨_, answers, problems, rfl, hanswers, fun session => ?_, hproblems⟩
    change (Query.answer m (Introspection.mapping m.schema) _).run session = _
    rw [Query.answer, hmembers, hrun]
    rfl

namespace Nodes

def idField : FieldDefinition := ⟨"id", [], .nullable (.named "ID")⟩

def node : TypeDefinition := .interface ⟨"Node", [idField], []⟩

def query : TypeDefinition := .object ⟨"Query", [idField], ["Node"]⟩

/-- A schema whose query type implements an interface. -/
def schema : Schema := .ofTypes [node, query] "Query"

def text : String := "interface Node { id: ID } type Query implements Node { id: ID }"

def tokens : List Document.Token :=
  [.name "interface", .name "Node", .punctuator '{', .name "id", .punctuator ':', .name "ID",
    .punctuator '}', .name "type", .name "Query", .name "implements", .name "Node",
    .punctuator '{', .name "id", .punctuator ':', .name "ID", .punctuator '}']

theorem scan_tokens : Document.Token.scan? text = some tokens := by decide +kernel

theorem declarations_of_tokens :
    (Document.Parser.itemsToEnd Document.declaration tokens.length).run tokens =
      some ([.type node, .type query], []) := by
  cbv

theorem parse_schema : Schema.parse text = .ok schema := by
  rw [Schema.parse_of_tokens scan_tokens declarations_of_tokens rfl]
  rfl

theorem acyclic : schema.Acyclic := Schema.acyclic_of_types (by decide)

def mapping : Mapping := .documents {
  schema
  types := [.object ⟨"Query", [.root "id" (.string "1")]⟩]
  elaborators := [] }

def request (text : String) : EngineRequest := ⟨text, none, none, true⟩

/-- The node by its name, a type that is not there, and a name inside a fragment. -/
def named : EngineRequest := request <|
  "\x7b __type(name: \"Node\") \x7b kind possibleTypes \x7b name \x7d \x7d " ++
    "none: __type(name: \"Leaf\") \x7b kind \x7d ... on Query \x7b __typename \x7d \x7d"

/-- Where no fragment leads away from the query type, nothing is reported. -/
theorem types_are_named :
    Schema.parse text = .ok mapping.schema ∧ mapping.schema.Acyclic ∧
      (∀ root ∈ named.roots, root.asksTypes schema = true) ∧
      ((Engine.ofMapping mapping).compile named).problems = [] ∧
      ∃ q answers, (Engine.ofMapping mapping).compile named = .success q ∧
        List.Forall₂ (RootAnswer schema) named.roots answers ∧
        ∀ session, ((Engine.ofMapping mapping).run q).run session =
          (.success (Json.ofMembers answers.flatten), session) := by
  have hall : ∀ root ∈ named.roots, root.asksTypes schema = true ∧ root.staysOn "Query" = true := by
    decide +kernel
  have hroots := fun root hroot => (hall root hroot).1
  have hcompiles : ((Engine.ofMapping mapping).compile named).problems = [] := by decide +kernel
  obtain ⟨q, answers, problems, hcompile, hanswers, hrun, hproblems⟩ :=
    Engine.types_are_answered (m := mapping) parse_schema acyclic hroots hcompiles
  obtain rfl := hproblems.2 fun root hroot => (hall root hroot).2
  exact ⟨parse_schema, acyclic, hroots, hcompiles, q, answers, hcompile, hanswers, hrun⟩

/-- The same name inside a fragment on the interface is not in the data, and it is reported. -/
def strayed : EngineRequest := request "{ ... on Node { __typename } }"

theorem strayed_fragment_is_reported :
    Schema.parse text = .ok mapping.schema ∧ mapping.schema.Acyclic ∧
      (∀ root ∈ strayed.roots, root.asksTypes schema = true) ∧
      ((Engine.ofMapping mapping).compile strayed).problems = [] ∧
      (((Engine.ofMapping mapping).runCompiled
        ((Engine.ofMapping mapping).compile strayed)).run (.start fun _ _ => .ok ⟨[], []⟩)).1.problems
          ≠ [] := by
  refine ⟨parse_schema, acyclic, ?_, ?_, ?_⟩
  · decide +kernel
  · decide +kernel
  · decide +kernel

end Nodes

end MappedQuery
