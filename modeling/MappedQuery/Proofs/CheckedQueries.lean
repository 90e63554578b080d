import MappedQuery.Proofs.CompiledRoots
import MappedQuery.Proofs.ConformingDocuments
import MappedQuery.Proofs.Sequencing

/-!
# What a query that compiles has been checked for

A request is read as a query of selections, groups and fragments. If the elaboration of such a
query reports nothing, and nothing replaces selections or is delegated, then every selection that
is left is of a field of the type that it stands on. Where the query type has neither super- nor
subtypes, the roots are selections.
-/
namespace MappedQuery

namespace Query

mutual

/-- A query as a request writes it: of selections, groups and fragments. -/
def isWritten : Query → Bool
  | .select _ _ _ child => child.isWritten
  | .narrow _ child => child.isWritten
  | .group queries => areWritten queries
  | .empty => true
  | .filter .. | .unique _ | .limit .. | .orderBy .. | .component .. | .introspect _ => false

def areWritten : List Query → Bool
  | [] => true
  | q :: rest => q.isWritten && areWritten rest

end

theorem areWritten_iff {qs : List Query} :
    areWritten qs = true ↔ ∀ q ∈ qs, q.isWritten = true := by
  induction qs with
  | nil => exact ⟨fun _ q hq => absurd hq List.not_mem_nil, fun _ => rfl⟩
  | cons q rest ih =>
    rw [areWritten, Bool.and_eq_true, ih]
    exact ⟨fun h => List.forall_mem_cons.2 h, fun h => List.forall_mem_cons.1 h⟩

theorem isWritten_group (qs : List Query) :
    (group qs).isWritten = true ↔ ∀ q ∈ qs, q.isWritten = true := by
  rw [isWritten]
  exact areWritten_iff

theorem isWritten_of_mem_members {q a : Query} (h : q.isWritten = true) (ha : a ∈ q.members) :
    a.isWritten = true :=
  of_mem_members (P := fun q => q.isWritten = true) (fun qs => (isWritten_group qs).1) h ha

theorem isWritten_grouped {qs : List Query} (h : ∀ q ∈ qs, q.isWritten = true) :
    (grouped qs).isWritten = true :=
  of_grouped (P := fun q => q.isWritten = true) rfl isWritten_group h

end Query

namespace Document

section Selections

variable {vs : Variables} {expand : String → Except RequestFault Query}

mutual

theorem Selection.isWritten_toQuery?
    (hexpand : ∀ name q, expand name = .ok q → q.isWritten = true) :
    ∀ {selection : Selection} {q : Query}, selection.toQuery? vs expand = .ok (some q) →
      q.isWritten = true
  | .field alias? name arguments directives selections, q, h => by
    rw [Selection.toQuery?] at h
    obtain ⟨included, -, h⟩ := bind_eq_ok.1 h
    split at h
    · obtain ⟨bindings, -, h⟩ := bind_eq_ok.1 h
      obtain ⟨queries, hqueries, h⟩ := bind_eq_ok.1 h
      cases pure_eq_ok.1 h
      exact Query.isWritten_grouped (isWritten_selectionQueries hexpand hqueries)
    · cases pure_eq_ok.1 h
  | .spread fragment directives, q, h => by
    rw [Selection.toQuery?] at h
    obtain ⟨included, -, h⟩ := bind_eq_ok.1 h
    split at h
    · obtain ⟨expanded, hexpanded, hq⟩ := map_eq_ok.1 h
      cases hq
      exact hexpand fragment _ hexpanded
    · cases pure_eq_ok.1 h
  | .inline type? directives selections, q, h => by
    rw [Selection.toQuery?] at h
    obtain ⟨included, -, h⟩ := bind_eq_ok.1 h
    split at h
    · obtain ⟨queries, hqueries, h⟩ := bind_eq_ok.1 h
      have hchild := Query.isWritten_grouped (isWritten_selectionQueries hexpand hqueries)
      dsimp only at h
      split at h
      · cases pure_eq_ok.1 h
        exact hchild
      · cases pure_eq_ok.1 h
        exact hchild
    · cases pure_eq_ok.1 h

theorem isWritten_selectionQueries
    (hexpand : ∀ name q, expand name = .ok q → q.isWritten = true) :
    ∀ {selections : List Selection} {qs : List Query},
      selectionQueries vs expand selections = .ok qs → ∀ q ∈ qs, q.isWritten = true
  | [], qs, h => by
    rw [selectionQueries] at h
    cases h
    exact fun q hq => by cases hq
  | selection :: rest, qs, h => by
    rw [selectionQueries] at h
    obtain ⟨query?, hquery, h⟩ := bind_eq_ok.1 h
    obtain ⟨others, hothers, h⟩ := bind_eq_ok.1 h
    obtain rfl := pure_eq_ok.1 h
    intro q hq
    rcases List.mem_append.1 hq with hq | hq
    · obtain rfl := Option.mem_toList.1 hq
      exact Selection.isWritten_toQuery? hexpand hquery
    · exact isWritten_selectionQueries hexpand hothers q hq

end

end Selections

namespace Request

theorem isWritten_expand (r : Request) (vs : Variables) (levels : Nat) :
    ∀ (enclosing : List String) (name : String) (q : Query),
      r.expand vs levels enclosing name = .ok q → q.isWritten = true := by
  induction levels with
  | zero =>
    intro enclosing name q h
    unfold expand at h
    split at h
    · cases h
    · split at h <;> cases h
  | succ levels ih =>
    intro enclosing name q h
    unfold expand at h
    split at h
    · cases h
    · split at h
      · cases h
      · obtain ⟨queries, hqueries, h⟩ := bind_eq_ok.1 h
        obtain rfl := pure_eq_ok.1 h
        rw [Query.isWritten]
        exact Query.isWritten_grouped (isWritten_selectionQueries (ih _) hqueries)

theorem isWritten_toQuery {r : Request} {operationName? : Option String}
    {variables? : Option Json} {q : Query} (h : r.toQuery operationName? variables? = .ok q) :
    q.isWritten = true := by
  unfold toQuery at h
  obtain ⟨o, -, h⟩ := bind_eq_ok.1 h
  split at h
  · obtain ⟨vs, -, h⟩ := bind_eq_ok.1 h
    obtain ⟨queries, hqueries, h⟩ := bind_eq_ok.1 h
    obtain rfl := pure_eq_ok.1 h
    exact Query.isWritten_grouped
      (isWritten_selectionQueries (r.isWritten_expand vs _ []) hqueries)
  · cases h
  · cases h

end Request

end Document

/-- What is read of a request is written by it. -/
theorem Engine.isWritten_read {r : EngineRequest} {q : Query} (h : Engine.read r = .ok q) :
    q.isWritten = true := by
  unfold Engine.read at h
  split at h
  · cases h
  · split at h
    · rename_i hq
      cases h
      exact Document.Request.isWritten_toQuery hq
    · cases h

namespace Outcome

variable {α β : Type}

theorem map_eq_success {o : Outcome α} {f : α → β} {b : β} :
    o.map f = .success b ↔ ∃ a, o = .success a ∧ f a = b := by
  obtain ⟨value?, problems⟩ := o
  cases value? <;> simp [map, success, and_comm]

theorem andThen_eq_success {o : Outcome α} {f : α → Outcome β} {b : β} :
    o.andThen f = .success b ↔ ∃ a, o = .success a ∧ f a = .success b := by
  obtain ⟨value?, problems⟩ := o
  cases value? with
  | none => simp [andThen, success]
  | some a =>
    rcases hf : f a with ⟨_, _⟩
    simp [andThen, success, hf]
    tauto

theorem collect_eq_success {os : List (Outcome α)} {as : List α} :
    collect os = .success as ↔ List.Forall₂ (fun o a => o = .success a) os as := by
  induction os generalizing as with
  | nil => simp [collect, success]
  | cons o os ih =>
    obtain ⟨value?, problems⟩ := o
    rcases hos : collect os with ⟨values?, others⟩
    cases as with
    | nil => cases value? <;> cases values? <;> simp [collect, zip, map, success, hos]
    | cons a as =>
      rw [List.forall₂_cons, ← ih, hos]
      cases value? <;> cases values? <;> simp [collect, zip, map, success, hos]
      tauto

end Outcome

/-- A schema in which types can be told by their fields: no type leads back to itself, what is
implemented are interfaces, objects have the fields of their interfaces with the same types, and
nothing but a request leads to the query type. -/
structure Schema.Coherent (s : Schema) : Prop where
  acyclic : s.Acyclic
  interface : ∀ a b, s.Implements a b → ∃ d, s.find? b = some (.interface d)
  inherited : ∀ o i name f, s.IsObject o → s.isSubtype o i = true → s.ownField? name i = some f →
    ∃ g, s.field? o name = some g ∧ g.type = f.type
  queryObject : s.IsObject s.queryType
  queryInterfaces : s.interfaces s.queryType = []
  queryUnions : ∀ u, s.queryType ∉ s.unionMembers u
  queryFields : ∀ type name f, s.ownField? name type = some f → f.type.underlying ≠ s.queryType

namespace Schema

variable {s : Schema}

/-- An object type is implemented by no other type. -/
theorem Coherent.eq_of_reaches (hs : s.Coherent) {a o : String} (ho : s.IsObject o)
    (h : s.Reaches a o) : a = o := by
  obtain ⟨d, hd⟩ := ho
  rcases Relation.ReflTransGen.cases_tail h with rfl | ⟨b, -, hb⟩
  · rfl
  · obtain ⟨i, hi⟩ := hs.interface b o hb
    rw [hd] at hi
    cases hi

theorem unionMembers_of_isObject {o : String} (ho : s.IsObject o) : s.unionMembers o = [] := by
  obtain ⟨d, hd⟩ := ho
  rw [unionMembers, hd]
  rfl

/-- The query type has no supertypes but itself. -/
theorem Coherent.eq_of_queryType_isSubtype (hs : s.Coherent) {t : String}
    (h : s.isSubtype s.queryType t = true) : t = s.queryType := by
  obtain ⟨u, hu, htest⟩ := hs.acyclic.isSubtype_iff.1 h
  obtain rfl : u = s.queryType := by
    rcases Relation.ReflTransGen.cases_head hu with rfl | ⟨i, hi, -⟩
    · rfl
    · rw [Implements, hs.queryInterfaces] at hi
      cases hi
  rcases htest with heq | hmember
  · exact heq.symm
  · exact absurd hmember (hs.queryUnions t)

/-- An object type has no subtypes but itself. -/
theorem Coherent.eq_of_isSubtype (hs : s.Coherent) {t o : String} (ho : s.IsObject o)
    (h : s.isSubtype t o = true) : t = o := by
  obtain ⟨u, hu, htest⟩ := hs.acyclic.isSubtype_iff.1 h
  rw [unionMembers_of_isObject ho] at htest
  rcases htest with rfl | hmember
  · exact hs.eq_of_reaches ho hu
  · cases hmember

end Schema

namespace Query

mutual

/-- Every selection of a query is of a field of the type that it stands on. -/
def ChecksOn (s : Schema) : String → Query → Prop
  | type, .select name _ _ child =>
    name = "__typename" ∨ ∃ f, s.field? type name = some f ∧ child.ChecksOn s f.type.underlying
  | _, .narrow condition child => child.ChecksOn s condition
  | type, .group queries => AllCheckOn s type queries
  | _, .empty => True
  | _, .filter .. | _, .unique _ | _, .limit .. | _, .orderBy .. | _, .component ..
  | _, .introspect _ => False

def AllCheckOn (s : Schema) : String → List Query → Prop
  | _, [] => True
  | type, q :: rest => q.ChecksOn s type ∧ AllCheckOn s type rest

end

variable {s : Schema} {type : String}

theorem allCheckOn_iff {qs : List Query} :
    AllCheckOn s type qs ↔ ∀ q ∈ qs, q.ChecksOn s type := by
  induction qs with
  | nil => exact ⟨fun _ q hq => absurd hq List.not_mem_nil, fun _ => trivial⟩
  | cons q rest ih =>
    rw [AllCheckOn, ih]
    exact ⟨fun h => List.forall_mem_cons.2 h, fun h => List.forall_mem_cons.1 h⟩

theorem ChecksOn.not_isListOperation {q : Query} (h : q.ChecksOn s type) :
    q.isListOperation = false := by
  cases q with
  | filter | unique | limit | orderBy => simp [ChecksOn] at h
  | _ => rfl

theorem checksOn_group (qs : List Query) :
    (group qs).ChecksOn s type ↔ ∀ q ∈ qs, q.ChecksOn s type := by
  rw [ChecksOn]
  exact allCheckOn_iff

theorem checksOn_of_mem_membersAll {qs : List Query} {a : Query}
    (h : ∀ q ∈ qs, q.ChecksOn s type) (ha : a ∈ membersAll qs) : a.ChecksOn s type :=
  of_mem_membersAll (P := (·.ChecksOn s type)) (fun qs => (checksOn_group qs).1) h ha

theorem checksOn_grouped {qs : List Query} (h : ∀ q ∈ qs, q.ChecksOn s type) :
    (grouped qs).ChecksOn s type :=
  of_grouped (P := (·.ChecksOn s type)) (by rw [ChecksOn]; trivial) checksOn_group h

end Query

/-- Nothing replaces the selections of a mapping, and nothing is delegated. -/
structure Mapping.Direct (m : Mapping) : Prop where
  elaborator : ∀ type name, m.elaborator? type name = none
  delegate : ∀ path type name d, m.resolve path type name ≠ .delegated d

theorem Mapping.Direct.delegateTarget? {m : Mapping} (hm : m.Direct) (path : List String)
    (type name : String) : m.delegateTarget? path type name = none :=
  Mapping.delegateTarget?_eq_none (hm.delegate path type name)

namespace Query

theorem dropped_ne_success {f : Fault} {q : Query} : dropped f ≠ .success q := by
  intro h
  injection h with _ hproblems
  cases hproblems

theorem elaborateAll_eq_map (m : Mapping) (type : String) (path : List String) (qs : List Query) :
    elaborateAll m type path qs = qs.map (elaborate m type path) := by
  induction qs with
  | nil => rfl
  | cons q rest ih => rw [elaborateAll, ih, List.map_cons]

section Elaborated

variable {m : Mapping}

/-- What is left of a selection of a field that is not delegated is what its elaborator makes of it
with its arguments bound and with what is left below it. -/
theorem elaborate_select_eq_success {type name : String} {path : List String}
    (hdelegate : m.delegateTarget? path type name = none) {alias? : Option String}
    {bindings : List Binding} {child q : Query}
    (h : (Query.select name alias? bindings child).elaborate m type path = .success q) :
    (name = "__typename" ∧ q = .select name alias? bindings child) ∨
      ∃ f bindings' child', m.schema.field? type name = some f ∧
        f.bindArguments m.schema bindings = .ok bindings' ∧
        child.elaborate m f.type.underlying (path ++ [name]) = .success child' ∧
          applyElaborator (m.elaborator? type name) ⟨name, alias?, bindings', child'⟩ =
            .success q := by
  rw [elaborate] at h
  split at h
  · rename_i hname
    split at h
    · injection h with hvalue
      exact .inl ⟨hname, (Option.some.inj hvalue).symm⟩
    · exact absurd h dropped_ne_success
  · split at h
    · exact absurd h dropped_ne_success
    · rename_i f hf
      split at h
      · exact absurd h dropped_ne_success
      · rename_i bindings' hbindings
        dsimp only at h
        split at h
        · exact absurd h dropped_ne_success
        · exact absurd h dropped_ne_success
        · rw [hdelegate] at h
          obtain ⟨child', hchild, happlied⟩ := Outcome.andThen_eq_success.1 h
          rw [Mapping.fieldElaborator?, Option.bind_none, Option.or_none] at happlied
          exact .inr ⟨f, bindings', child', hf, hbindings, hchild, happlied⟩

/-- Without an elaborator the selection is left. -/
theorem elaborate_select_unreplaced {type name : String} {path : List String}
    (hdelegate : m.delegateTarget? path type name = none)
    (helaborator : m.elaborator? type name = none) {alias? : Option String}
    {bindings : List Binding} {child q : Query}
    (h : (Query.select name alias? bindings child).elaborate m type path = .success q) :
    (name = "__typename" ∧ q = .select name alias? bindings child) ∨
      ∃ f bindings' child', m.schema.field? type name = some f ∧
        child.elaborate m f.type.underlying (path ++ [name]) = .success child' ∧
          q = .select name alias? bindings' child' := by
  refine (elaborate_select_eq_success hdelegate h).imp_right ?_
  rintro ⟨f, bindings', child', hf, -, hchild, happlied⟩
  rw [helaborator] at happlied
  injection happlied with hvalue
  exact ⟨f, bindings', child', hf, hchild, (Option.some.inj hvalue).symm⟩

mutual

/-- Elaboration that reports nothing leaves a query that is checked. -/
theorem checksOn_elaborate (hm : m.Direct) : ∀ {q q' : Query} {type : String}
    {path : List String}, q.isWritten = true → q.elaborate m type path = .success q' →
      q'.ChecksOn m.schema type
  | .select name alias? bindings child, q', type, path, hq, h => by
    rw [isWritten] at hq
    rcases elaborate_select_unreplaced (hm.delegateTarget? _ _ _) (hm.elaborator _ _) h with
      ⟨hname, rfl⟩ | ⟨f, _, child', hf, hchild, rfl⟩
    · rw [ChecksOn]
      exact .inl hname
    · rw [ChecksOn]
      exact .inr ⟨f, hf, checksOn_elaborate hm hq hchild⟩
  | .narrow condition child, q', type, path, hq, h => by
    rw [isWritten] at hq
    rw [elaborate] at h
    split at h
    · exact checksOn_elaborate hm hq h
    · split at h
      · exact absurd h dropped_ne_success
      · split at h
        · obtain ⟨child', hchild, rfl⟩ := Outcome.map_eq_success.1 h
          rw [ChecksOn]
          exact checksOn_elaborate hm hq hchild
        · exact absurd h dropped_ne_success
  | .group queries, q', type, path, hq, h => by
    rw [isWritten] at hq
    rw [elaborate] at h
    obtain ⟨qs, hqs, rfl⟩ := Outcome.map_eq_success.1 h
    exact checksOn_grouped (checksOn_elaborateAll hm (areWritten_iff.1 hq)
      (Outcome.collect_eq_success.1 hqs))
  | .empty, q', type, path, hq, h => by
    rw [elaborate] at h
    · injection h with hvalue
      rw [← Option.some.inj hvalue, ChecksOn]
      trivial
    all_goals simp
  | .filter .., q', type, path, hq, h | .unique _, q', type, path, hq, h
  | .limit .., q', type, path, hq, h | .orderBy .., q', type, path, hq, h
  | .component .., q', type, path, hq, h | .introspect _, q', type, path, hq, h => by
    rw [isWritten] at hq
    cases hq

theorem checksOn_elaborateAll (hm : m.Direct) : ∀ {qs qs' : List Query} {type : String}
    {path : List String}, (∀ q ∈ qs, q.isWritten = true) →
      List.Forall₂ (fun o q => o = .success q) (elaborateAll m type path qs) qs' →
        ∀ q ∈ qs', q.ChecksOn m.schema type
  | [], qs', type, path, hqs, h => by
    rw [elaborateAll] at h
    cases h
    exact fun q hq => absurd hq List.not_mem_nil
  | q :: rest, qs', type, path, hqs, h => by
    rw [elaborateAll] at h
    cases h with
    | cons hfirst hrest =>
      refine List.forall_mem_cons.2 ⟨?_, ?_⟩
      · exact checksOn_elaborate hm (hqs q List.mem_cons_self) hfirst
      · exact checksOn_elaborateAll hm (fun b hb => hqs b (List.mem_cons_of_mem _ hb)) hrest

end

mutual

/-- No fragment is left on the query type, so what is left of roots are selections. -/
theorem exists_select_of_mem_members (hs : m.schema.Coherent) (hm : m.Direct) :
    ∀ {q q' a : Query} {path : List String}, q.isWritten = true →
      q.elaborate m m.schema.queryType path = .success q' → a ∈ q'.members →
        ∃ sel : Select, a = sel.toQuery
  | .select name alias? bindings child, q', a, path, hq, h, ha => by
    obtain ⟨bindings', child', rfl⟩ :
        ∃ bindings' child', q' = .select name alias? bindings' child' := by
      rcases elaborate_select_unreplaced (hm.delegateTarget? _ _ _) (hm.elaborator _ _) h with
        ⟨-, rfl⟩ | ⟨_, bindings', child', -, -, rfl⟩
      · exact ⟨_, _, rfl⟩
      · exact ⟨_, _, rfl⟩
    exact ⟨⟨name, alias?, bindings', child'⟩, List.mem_singleton.1 ha⟩
  | .narrow condition child, q', a, path, hq, h, ha => by
    rw [isWritten] at hq
    rw [elaborate] at h
    split at h
    · exact exists_select_of_mem_members hs hm hq h ha
    · rename_i hother
      split at h
      · exact absurd h dropped_ne_success
      · split at h
        · rename_i happlies
          rcases Bool.or_eq_true_iff.1 happlies with hsub | hsup
          · exact absurd (hs.eq_of_isSubtype hs.queryObject hsub) hother
          · exact absurd (hs.eq_of_queryType_isSubtype hsup) hother
        · exact absurd h dropped_ne_success
  | .group queries, q', a, path, hq, h, ha => by
    rw [isWritten] at hq
    rw [elaborate] at h
    obtain ⟨qs, hqs, rfl⟩ := Outcome.map_eq_success.1 h
    rw [members_grouped] at ha
    exact exists_select_of_mem_membersAll hs hm (areWritten_iff.1 hq)
      (Outcome.collect_eq_success.1 hqs) ha
  | .empty, q', a, path, hq, h, ha => by
    rw [elaborate] at h
    · injection h with hvalue
      rw [← Option.some.inj hvalue, members] at ha
      cases ha
    all_goals simp
  | .filter .., q', a, path, hq, h, ha | .unique _, q', a, path, hq, h, ha
  | .limit .., q', a, path, hq, h, ha | .orderBy .., q', a, path, hq, h, ha
  | .component .., q', a, path, hq, h, ha | .introspect _, q', a, path, hq, h, ha => by
    rw [isWritten] at hq
    cases hq

theorem exists_select_of_mem_membersAll (hs : m.schema.Coherent) (hm : m.Direct) :
    ∀ {qs qs' : List Query} {a : Query} {path : List String},
      (∀ q ∈ qs, q.isWritten = true) → List.Forall₂ (fun o q => o = .success q)
        (elaborateAll m m.schema.queryType path qs) qs' → a ∈ membersAll qs' →
          ∃ sel : Select, a = sel.toQuery
  | [], qs', a, path, hqs, h, ha => by
    rw [elaborateAll] at h
    cases h
    rw [membersAll] at ha
    cases ha
  | q :: rest, qs', a, path, hqs, h, ha => by
    rw [elaborateAll] at h
    cases h with
    | cons hfirst hrest =>
      rw [membersAll, List.mem_append] at ha
      rcases ha with ha | ha
      · exact exists_select_of_mem_members hs hm (hqs q List.mem_cons_self) hfirst ha
      · exact exists_select_of_mem_membersAll hs hm
          (fun b hb => hqs b (List.mem_cons_of_mem _ hb)) hrest ha

end

mutual

/-- Without delegated fields there are no components to make. -/
theorem delegate_eq_self (hm : m.Direct) : ∀ (q : Query) (type : String) (path : List String),
    q.delegate m type path = q
  | .select name alias? bindings child, type, path => by
    rw [delegate]
    split
    · rfl
    · dsimp only
      rw [hm.delegateTarget?]
      dsimp only
      rw [delegate_eq_self hm child]
  | .filter p child, type, path | .unique child, type, path | .limit n child, type, path
  | .orderBy os child, type, path | .narrow condition child, type, path => by
    rw [delegate, delegate_eq_self hm child]
  | .group queries, type, path => by
    rw [delegate, delegateAll_eq_self hm queries]
  | .component .., type, path | .introspect _, type, path | .empty, type, path => by
    rw [delegate]

theorem delegateAll_eq_self (hm : m.Direct) : ∀ (qs : List Query) (type : String)
    (path : List String), delegateAll m type path qs = qs
  | [], type, path => by rw [delegateAll]
  | q :: rest, type, path => by
    rw [delegateAll, delegate_eq_self hm q, delegateAll_eq_self hm rest]

end

end Elaborated

end Query

/-- Outcomes with values and without problems are successes. -/
theorem Outcome.exists_collect_eq_success {α : Type} {os : List (Outcome α)}
    (hvalues : ∀ o ∈ os, o.value?.isSome = true) (hproblems : (collect os).problems = []) :
    ∃ as, collect os = .success as := by
  rw [problems_collect, List.flatMap_eq_nil_iff] at hproblems
  simp only [collect_eq_success]
  induction os with
  | nil => exact ⟨[], .nil⟩
  | cons o os ih =>
    obtain ⟨as, has⟩ := ih (fun p hp => hvalues p (List.mem_cons_of_mem _ hp))
      fun p hp => hproblems p (List.mem_cons_of_mem _ hp)
    obtain ⟨a, ha⟩ := Option.isSome_iff_exists.1 (hvalues o List.mem_cons_self)
    obtain ⟨value?, problems⟩ := o
    obtain rfl : problems = [] := hproblems _ List.mem_cons_self
    exact ⟨a :: as, .cons (congrArg (Outcome.mk · []) ha) has⟩

/-- A request that compiles without problems, and does not ask for the schema, is compiled into
selections of fields of the query type, with checked queries below them. -/
theorem Engine.compile_checked {e : Engine} (hs : e.mapping.schema.Coherent)
    (hm : e.mapping.Direct) {r : EngineRequest} {q₀ : Query} (hread : Engine.read r = .ok q₀)
    (hroots : ∀ root ∈ q₀.members, root.isIntrospectionRoot = false)
    (h : (e.compile r).problems = []) :
    ∃ q, e.compile r = .success q ∧ ∀ b ∈ q.members,
      (∃ sel : Select, b = sel.toQuery) ∧
        b.ChecksOn e.mapping.schema e.mapping.schema.queryType := by
  have helaborated : q₀.members.map (Query.elaborateRoot e.mapping e.introspection
      r.allowIntrospection) =
        q₀.members.map (Query.elaborate e.mapping e.mapping.schema.queryType []) := by
    refine List.map_congr_left fun root hroot => ?_
    rw [Query.elaborateRoot, hroots root hroot, if_neg Bool.false_ne_true]
  have hcompile : e.compile r = ((Outcome.collect (q₀.members.map
      (Query.elaborate e.mapping e.mapping.schema.queryType []))).map Query.grouped).map
        (·.delegateRoots e.mapping) := by
    rw [← helaborated, Engine.compile, hread]
    rfl
  rw [hcompile] at h ⊢
  obtain ⟨qs, hqs⟩ := Outcome.exists_collect_eq_success (fun o ho => by
    obtain ⟨root, -, rfl⟩ := List.mem_map.1 ho
    exact Query.isSome_elaborate e.mapping _ _ root) h
  rw [hqs]
  refine ⟨_, rfl, fun b hb => ?_⟩
  have hdelegate : (Query.grouped qs).members.map
      (Query.delegate e.mapping e.mapping.schema.queryType []) = (Query.grouped qs).members := by
    rw [List.map_congr_left fun q _ => Query.delegate_eq_self hm q _ _]
    exact List.map_id _
  change b ∈ (Query.delegateRoots e.mapping (Query.grouped qs)).members at hb
  rw [Query.delegateRoots, hdelegate, Query.members_grouped, Query.members_grouped,
    Query.membersAll_membersAll] at hb
  have hwritten : ∀ root ∈ q₀.members, root.isWritten = true :=
    fun root hroot => Query.isWritten_of_mem_members (Engine.isWritten_read hread) hroot
  have hall := Outcome.collect_eq_success.1 hqs
  rw [← Query.elaborateAll_eq_map] at hall
  exact ⟨Query.exists_select_of_mem_membersAll hs hm hwritten hall hb,
    Query.checksOn_of_mem_membersAll (Query.checksOn_elaborateAll hm hwritten hall) hb⟩

end MappedQuery
