import Mathlib.Tactic.Choose
import MappedQuery.Engine

/-!
# Roots of a compiled query

Compiling takes the roots of a query one by one. What it makes of a root selection is a selection
under the same key, to be read from the mapping, from the mapping that the field is delegated to or
from introspection, or nothing, if the selection was reported. The roots of the compiled query
are those that the single selections are compiled into.
-/
namespace MappedQuery

namespace Query

mutual

theorem members_of_mem_members : ∀ {q a : Query}, a ∈ q.members → a.members = [a]
  | .group queries, a, h => by
    rw [members] at h
    exact members_of_mem_membersAll h
  | .empty, a, h => by
    rw [members] at h
    cases h
  | .select .., a, h | .filter .., a, h | .unique _, a, h | .narrow .., a, h | .limit .., a, h
  | .orderBy .., a, h | .component .., a, h | .introspect _, a, h => by
    rw [members] at h
    · rw [List.mem_singleton.1 h, members]
      · simp
      · simp
    · simp
    · simp

theorem members_of_mem_membersAll : ∀ {queries : List Query} {a : Query},
    a ∈ membersAll queries → a.members = [a]
  | [], a, h => by
    rw [membersAll] at h
    cases h
  | q :: rest, a, h => by
    rw [membersAll, List.mem_append] at h
    rcases h with h | h
    · exact members_of_mem_members h
    · exact members_of_mem_membersAll h

end

theorem membersAll_eq_flatMap (queries : List Query) :
    membersAll queries = queries.flatMap members := by
  induction queries with
  | nil => rfl
  | cons q rest ih => rw [membersAll, ih, List.flatMap_cons]

/-- Taking groups apart twice is no more than once. -/
theorem membersAll_membersAll (queries : List Query) :
    membersAll (membersAll queries) = membersAll queries := by
  rw [membersAll_eq_flatMap (membersAll queries)]
  have hself : ∀ as : List Query, (∀ a ∈ as, a.members = [a]) → as.flatMap members = as := by
    intro as h
    induction as with
    | nil => rfl
    | cons a as ih =>
      rw [List.flatMap_cons, h a List.mem_cons_self, ih fun b hb => h b (List.mem_cons_of_mem _ hb)]
      rfl
  exact hself _ fun a => members_of_mem_membersAll

/-- The members of queries that were put together. -/
theorem members_grouped (queries : List Query) :
    (grouped queries).members = membersAll queries := by
  unfold grouped
  split
  · rename_i hnone
    rw [hnone, members]
  · rename_i q hone
    rw [hone]
    exact members_of_mem_membersAll (hone ▸ List.mem_singleton_self q)
  · rw [members, membersAll_membersAll]

/-- Putting queries together depends on their members only. -/
theorem grouped_congr {as bs : List Query} (h : membersAll as = membersAll bs) :
    grouped as = grouped bs := by
  rw [grouped, grouped, h]

theorem membersAll_singleton_grouped (qs : List Query) :
    membersAll [grouped qs] = membersAll qs := by
  rw [membersAll, membersAll, List.append_nil, members_grouped]

section Inherited

variable {P : Query → Prop}

mutual

/-- What the queries of a group have of the group, the members of a query have of the query. -/
theorem of_mem_members (hgroup : ∀ qs, P (.group qs) → ∀ q ∈ qs, P q) :
    ∀ {q a : Query}, P q → a ∈ q.members → P a
  | .group queries, a, hq, ha => by
    rw [members] at ha
    exact of_mem_membersAll hgroup (hgroup queries hq) ha
  | .empty, a, hq, ha => by
    rw [members] at ha
    cases ha
  | .select .., a, hq, ha | .filter .., a, hq, ha | .unique _, a, hq, ha | .narrow .., a, hq, ha
  | .limit .., a, hq, ha | .orderBy .., a, hq, ha | .component .., a, hq, ha
  | .introspect _, a, hq, ha => by
    rw [members] at ha
    · rw [List.mem_singleton.1 ha]
      exact hq
    · simp
    · simp

theorem of_mem_membersAll (hgroup : ∀ qs, P (.group qs) → ∀ q ∈ qs, P q) :
    ∀ {qs : List Query} {a : Query}, (∀ q ∈ qs, P q) → a ∈ membersAll qs → P a
  | [], a, hqs, ha => by
    rw [membersAll] at ha
    cases ha
  | q :: rest, a, hqs, ha => by
    rw [membersAll, List.mem_append] at ha
    rcases ha with ha | ha
    · exact of_mem_members hgroup (hqs q List.mem_cons_self) ha
    · exact of_mem_membersAll hgroup (fun b hb => hqs b (List.mem_cons_of_mem _ hb)) ha

end

/-- What a group has if and only if its queries have it, queries have also when put together. -/
theorem of_grouped (hempty : P .empty) (hgroup : ∀ qs, P (.group qs) ↔ ∀ q ∈ qs, P q)
    {qs : List Query} (h : ∀ q ∈ qs, P q) : P (grouped qs) := by
  have hall : ∀ a ∈ membersAll qs, P a :=
    fun _ => of_mem_membersAll (fun queries => (hgroup queries).1) h
  unfold grouped
  split
  · exact hempty
  · rename_i q hone
    exact hall q (hone ▸ List.mem_singleton_self q)
  · exact (hgroup _).2 hall

end Inherited

theorem isEmpty_iff_of_members {q a : Query} (h : a ∈ q.members) : q.isEmpty = false := by
  cases q with
  | empty => simp [members] at h
  | _ => rfl

theorem isEmpty_grouped {queries : List Query} :
    (grouped queries).isEmpty = true ↔ membersAll queries = [] := by
  constructor
  · intro h
    refine List.eq_nil_iff_forall_not_mem.2 fun a ha => ?_
    rw [isEmpty_iff_of_members (members_grouped queries ▸ ha)] at h
    cases h
  · intro h
    rw [grouped, h]
    rfl

end Query

theorem Outcome.value?_collect_map {α β : Type} {F : α → Outcome β} {g : α → β} {l : List α}
    (h : ∀ a ∈ l, (F a).value? = some (g a)) :
    (Outcome.collect (l.map F)).value? = some (l.map g) := by
  induction l with
  | nil => rfl
  | cons a l ih =>
    have hrest := ih fun b hb => h b (List.mem_cons_of_mem _ hb)
    simp [Outcome.collect, Outcome.map, Outcome.zip, h a List.mem_cons_self, hrest]

namespace Query

mutual

/-- Elaboration leaves something of every query, if only the empty one. -/
theorem isSome_elaborate : ∀ (m : Mapping) (type : String) (path : List String) (q : Query),
    (q.elaborate m type path).value?.isSome = true
  | m, type, path, .select name alias? bindings child => by
    have happlied (elaborator? : Option Elaborator) (s : Select) :
        (applyElaborator elaborator? s).value?.isSome = true := by
      unfold applyElaborator
      split
      · rfl
      · split <;> rfl
    have hbelow {o : Outcome Query} (ho : o.value?.isSome = true) {f : Query → Outcome Query}
        (hf : ∀ q, (f q).value?.isSome = true) : (o.andThen f).value?.isSome = true := by
      obtain ⟨q, hq⟩ := Option.isSome_iff_exists.1 ho
      rw [Outcome.andThen, hq]
      exact hf q
    rw [elaborate]
    split
    · split <;> rfl
    · split
      · rfl
      · split
        · rfl
        · dsimp only
          split
          · rfl
          · rfl
          · refine hbelow ?_ fun _ => happlied _ _
            split
            · exact isSome_elaborate _ _ _ child
            · exact isSome_elaborate _ _ _ child
  | m, type, path, .narrow condition child => by
    rw [elaborate]
    split
    · exact isSome_elaborate m type path child
    · split
      · rfl
      · split
        · rw [Outcome.map, Option.isSome_map]
          exact isSome_elaborate m condition path child
        · rfl
  | m, type, path, .group queries => by
    rw [elaborate, Outcome.map, Option.isSome_map]
    exact isSome_collect_elaborateAll m type path queries
  | m, type, path, .filter .. | m, type, path, .unique _ | m, type, path, .limit ..
  | m, type, path, .orderBy .. | m, type, path, .component .. | m, type, path, .introspect _
  | m, type, path, .empty => by
    rw [elaborate] <;> first | rfl | simp

theorem isSome_collect_elaborateAll : ∀ (m : Mapping) (type : String) (path : List String)
    (queries : List Query),
    (Outcome.collect (elaborateAll m type path queries)).value?.isSome = true
  | m, type, path, [] => rfl
  | m, type, path, q :: rest => by
    obtain ⟨q', hq⟩ := Option.isSome_iff_exists.1 (isSome_elaborate m type path q)
    obtain ⟨rest', hrest⟩ := Option.isSome_iff_exists.1
      (isSome_collect_elaborateAll m type path rest)
    simp [elaborateAll, Outcome.collect, Outcome.map, Outcome.zip, hq, hrest]

end

/-- What compiling makes of a root selection with a response key. -/
inductive RootOf (key : String) : Query → Prop where
  | dropped : RootOf key .empty
  | selected (s : Select) (hkey : s.resultName = key) : RootOf key s.toQuery
  | delegated (type field : String) (s : Select) (hkey : s.resultName = key) :
    RootOf key (.component type field s.toQuery)
  | introspected (s : Select) (hkey : s.resultName = key) : RootOf key (.introspect s.toQuery)
  | unanswered : RootOf key (.introspect .empty)

namespace RootOf

variable {key : String} {q : Query}

theorem members_eq (h : RootOf key q) : q.members = if q.isEmpty then [] else [q] := by
  cases h <;> rfl

theorem delegate (h : RootOf key q) (m : Mapping) (type : String) (path : List String) :
    RootOf key (q.delegate m type path) ∧ (q.delegate m type path).isEmpty = q.isEmpty := by
  cases h with
  | selected s hkey =>
    have hselect (child : Query) : RootOf key (.select s.name s.alias? s.bindings child) :=
      .selected ⟨s.name, s.alias?, s.bindings, child⟩ hkey
    have hcomponent (child : Query) :
        RootOf key (.component type s.name (.select s.name s.alias? s.bindings child)) :=
      .delegated type s.name ⟨s.name, s.alias?, s.bindings, child⟩ hkey
    rw [Select.toQuery, Query.delegate]
    split
    · exact ⟨.selected s hkey, rfl⟩
    · dsimp only
      split
      · exact ⟨hcomponent _, rfl⟩
      · exact ⟨hselect _, rfl⟩
  | dropped => exact ⟨.dropped, rfl⟩
  | delegated type field s hkey => exact ⟨.delegated type field s hkey, rfl⟩
  | introspected s hkey => exact ⟨.introspected s hkey, rfl⟩
  | unanswered => exact ⟨.unanswered, rfl⟩

theorem members_delegate (h : RootOf key q) (m : Mapping) (type : String) (path : List String) :
    membersAll (q.members.map (Query.delegate m type path)) =
      (q.delegate m type path).members := by
  obtain ⟨hroot, hempty⟩ := h.delegate m type path
  rw [h.members_eq, hroot.members_eq, hempty]
  split
  · rfl
  · rename_i hsome
    rw [List.map_singleton, membersAll, membersAll, hroot.members_eq, hempty, if_neg hsome,
      List.append_nil]

end RootOf

end Query

/-- An elaborator that refuses a selection or keeps its response key. -/
def Elaborator.KeepsKey (elaborator : Elaborator) : Prop :=
  ∀ s q, elaborator s = .ok q → ∃ s' : Select, q = s'.toQuery ∧ s'.resultName = s.resultName

/-- The elaborators of root fields refuse a selection or keep its response key. -/
def Mapping.KeepsRootKeys (m : Mapping) : Prop :=
  ∀ name elaborator,
    m.fieldElaborator? (m.delegateTarget? [] m.schema.queryType name) m.schema.queryType name =
      some elaborator → elaborator.KeepsKey

/-- A registry that declares no delegated fields delegates none. -/
theorem Registry.resolve_ne_delegated {φ ρ μ : Type} [SourceField φ] {r : Registry φ ρ μ}
    (h : ∀ d, .delegate d ∉ r.allFields) (path : List String) (type name : String)
    (d : Delegate μ) : r.resolve path type name ≠ .delegated d := by
  intro hresolve
  unfold resolve at hresolve
  split at hresolve
  · rename_i d' hmapped
    exact h d' (mem_allFields_of_fieldMapping? hmapped)
  · cases hresolve
  · cases hresolve
  · cases hresolve

theorem Registry.mem_of_elaborator? {φ ρ μ : Type} {r : Registry φ ρ μ} {type field : String}
    {elaborator : Elaborator} (h : r.elaborator? type field = some elaborator) :
    ((type, field), elaborator) ∈ r.elaborators := by
  obtain ⟨⟨key, found⟩, hfound, rfl⟩ := Option.map_eq_some_iff.1 h
  have hkey := List.find?_some hfound
  obtain rfl := of_decide_eq_true hkey
  exact List.mem_reverse.1 (List.mem_of_find?_eq_some hfound)

theorem Mapping.delegateTarget?_eq_none {m : Mapping} {path : List String} {type name : String}
    (h : ∀ d, m.resolve path type name ≠ .delegated d) : m.delegateTarget? path type name = none := by
  unfold delegateTarget?
  split
  · rename_i d hd
    exact absurd hd (h d)
  · rfl

/-- Without delegated fields only the elaborators of the mapping itself count. -/
theorem Mapping.keepsRootKeys {m : Mapping}
    (hnone : ∀ path type name d, m.resolve path type name ≠ .delegated d)
    (hown : ∀ type name elaborator, m.elaborator? type name = some elaborator →
      elaborator.KeepsKey) : m.KeepsRootKeys := by
  intro name elaborator h
  rw [delegateTarget?_eq_none (hnone _ _ _), fieldElaborator?, Option.bind_none, Option.or_none] at h
  exact hown _ _ _ h

/-- Introspection delegates nothing. -/
theorem Introspection.resolve_ne_delegated (s : Schema) (path : List String) (type name : String)
    (d : Delegate Mapping) : (Introspection.mapping s).resolve path type name ≠ .delegated d := by
  refine Registry.resolve_ne_delegated (fun d hd => ?_) path type name d
  obtain ⟨t, ht, hfield⟩ := List.mem_flatMap.1 hd
  rcases List.mem_cons.1 ht with rfl | ht
  · simp at hfield
  · obtain ⟨definition, -, rfl⟩ := List.mem_map.1 ht
    obtain ⟨f, -, hf⟩ := List.mem_map.1 (show _ ∈ definition.fields.map _ from hfield)
    cases hf

/-- Introspection replaces `__type` by a selection under the same key. -/
theorem Introspection.keepsRootKeys (s : Schema) : (Introspection.mapping s).KeepsRootKeys := by
  refine Mapping.keepsRootKeys (resolve_ne_delegated s) ?_
  intro type name elaborator h
  have hmem := Registry.mem_of_elaborator? h
  cases List.mem_singleton.1 hmem
  intro selection q hq
  unfold typeByName at hq
  split at hq
  · cases hq
    exact ⟨_, rfl, rfl⟩
  · cases hq

namespace Query

/-- What elaboration leaves of a root selection: one under a key, or nothing and a problem. -/
def LeavesRoot (key : String) (o : Outcome Query) : Prop :=
  ∃ q, o.value? = some q ∧
    ((∃ s : Select, q = s.toQuery ∧ s.resultName = key) ∨ q = .empty ∧ o.problems ≠ [])

theorem leavesRoot_dropped (key : String) (f : Fault) : LeavesRoot key (dropped f) :=
  ⟨.empty, rfl, .inr ⟨rfl, List.cons_ne_nil _ _⟩⟩

theorem leavesRoot_success (s : Select) : LeavesRoot s.resultName (.success s.toQuery) :=
  ⟨_, rfl, .inl ⟨s, rfl, rfl⟩⟩

theorem leavesRoot_applyElaborator {elaborator? : Option Elaborator}
    (h : ∀ elaborator, elaborator? = some elaborator → elaborator.KeepsKey) (s : Select) :
    LeavesRoot s.resultName (applyElaborator elaborator? s) := by
  unfold applyElaborator
  split
  · exact leavesRoot_success s
  · rename_i elaborator
    split
    · rename_i q hq
      exact ⟨q, rfl, .inl (h elaborator rfl s q hq)⟩
    · exact leavesRoot_dropped _ _

theorem LeavesRoot.andThen {key : String} {o : Outcome Query} {f : Query → Outcome Query}
    (ho : o.value?.isSome = true) (hf : ∀ q, LeavesRoot key (f q)) :
    LeavesRoot key (o.andThen f) := by
  obtain ⟨below, hbelow⟩ := Option.isSome_iff_exists.1 ho
  obtain ⟨q, hq, hcases⟩ := hf below
  rw [Outcome.andThen, hbelow]
  exact ⟨q, hq, hcases.imp id fun h => ⟨h.1, List.append_ne_nil_of_right_ne_nil _ h.2⟩⟩

theorem leavesRoot_elaborate {m : Mapping} (hm : m.KeepsRootKeys) (s : Select) :
    LeavesRoot s.resultName (s.toQuery.elaborate m m.schema.queryType []) := by
  rw [Select.toQuery, elaborate]
  split
  · split
    · exact leavesRoot_success s
    · exact leavesRoot_dropped _ _
  · split
    · exact leavesRoot_dropped _ _
    · split
      · exact leavesRoot_dropped _ _
      · dsimp only
        split
        · exact leavesRoot_dropped _ _
        · exact leavesRoot_dropped _ _
        · refine LeavesRoot.andThen ?_ fun child =>
            leavesRoot_applyElaborator (hm s.name) ⟨s.name, s.alias?, _, child⟩
          split <;> exact isSome_elaborate _ _ _ _

/-- What elaboration makes of a root of a request. -/
theorem elaborateRoot_root {m introspection : Mapping} (hm : m.KeepsRootKeys)
    (hintrospection : introspection.KeepsRootKeys) (allow : Bool) (s : Select) :
    ∃ q, (s.toQuery.elaborateRoot m introspection allow).value? = some q ∧
      RootOf s.resultName q ∧
        (q.isEmpty = true → (s.toQuery.elaborateRoot m introspection allow).problems ≠ []) := by
  unfold elaborateRoot
  split
  · split
    · obtain ⟨q, hq, ⟨s', rfl, hkey⟩ | ⟨rfl, -⟩⟩ := leavesRoot_elaborate hintrospection s
      · refine ⟨_, by rw [Outcome.map, hq]; rfl, .introspected s' hkey, ?_⟩
        exact fun h => absurd h Bool.false_ne_true
      · refine ⟨_, by rw [Outcome.map, hq]; rfl, .unanswered, ?_⟩
        exact fun h => absurd h Bool.false_ne_true
    · exact ⟨.empty, rfl, .dropped, fun _ => List.cons_ne_nil _ _⟩
  · obtain ⟨q, hq, ⟨s', rfl, hkey⟩ | ⟨rfl, hproblems⟩⟩ := leavesRoot_elaborate hm s
    · exact ⟨_, hq, .selected s' hkey, fun h => absurd h Bool.false_ne_true⟩
    · exact ⟨_, hq, .dropped, fun _ => hproblems⟩

end Query

namespace Engine

variable (e : Engine) (allow : Bool)

/-- What a root selection is compiled into, with its problems. -/
def compiledRoot (s : Select) : Outcome Query :=
  (s.toQuery.elaborateRoot e.mapping e.introspection allow).map
    (·.delegate e.mapping e.mapping.schema.queryType [])

/-- The compiled root; of a selection that was reported nothing is left. -/
def rootQuery (s : Select) : Query := (e.compiledRoot allow s).value?.getD .empty

variable {e} (hm : e.mapping.KeepsRootKeys) (hi : e.introspection.KeepsRootKeys)
include hm hi

theorem rootQuery_root (s : Select) :
    (e.compiledRoot allow s).value? = some (e.rootQuery allow s) ∧
      Query.RootOf s.resultName (e.rootQuery allow s) ∧
        ((e.rootQuery allow s).isEmpty = true → (e.compiledRoot allow s).problems ≠ []) := by
  obtain ⟨q, hq, hroot, hproblems⟩ := Query.elaborateRoot_root hm hi allow s
  obtain ⟨hdelegate, hempty⟩ := hroot.delegate e.mapping e.mapping.schema.queryType []
  have hvalue : (e.compiledRoot allow s).value? =
      some (q.delegate e.mapping e.mapping.schema.queryType []) := by
    rw [compiledRoot, Outcome.map, hq]
    rfl
  have hquery : e.rootQuery allow s = q.delegate e.mapping e.mapping.schema.queryType [] := by
    rw [rootQuery, hvalue]
    rfl
  rw [hquery]
  exact ⟨hvalue, hdelegate, fun h => hproblems (hempty ▸ h)⟩

/-- The roots of a compiled query are the compiled roots, and its problems are theirs. -/
theorem compileQuery_roots {q : Query} {roots : List Select}
    (hroots : q.members = roots.map Select.toQuery) :
    (e.compileQuery allow q).problems = roots.flatMap (fun s => (e.compiledRoot allow s).problems) ∧
      ∃ compiled, (e.compileQuery allow q).value? = some compiled ∧
        compiled.members = roots.flatMap (fun s => (e.rootQuery allow s).members) ∧
        (compiled.isEmpty = true ↔ compiled.members = []) := by
  have hall := fun s => Query.elaborateRoot_root hm hi allow s
  choose elaborated hvalue hroot _ using hall
  have hquery (s : Select) :
      e.rootQuery allow s = (elaborated s).delegate e.mapping e.mapping.schema.queryType [] := by
    rw [rootQuery, compiledRoot, Outcome.map, hvalue]
    rfl
  have hmap : q.members.map (Query.elaborateRoot e.mapping e.introspection allow) = roots.map
      fun s => s.toQuery.elaborateRoot e.mapping e.introspection allow := by
    rw [hroots, List.map_map]
    rfl
  have hcompiled : (e.compileQuery allow q).value? =
      some (Query.delegateRoots e.mapping (Query.grouped (roots.map elaborated))) := by
    rw [compileQuery, Query.elaborateRoots, hmap, Outcome.map, Outcome.map,
      Outcome.value?_collect_map fun s _ => hvalue s]
    rfl
  refine ⟨?_, _, hcompiled, ?_, ?_⟩
  · rw [compileQuery, Query.elaborateRoots, hmap, Outcome.problems_map, Outcome.problems_map,
      Outcome.problems_collect, List.flatMap_map]
    rfl
  · rw [Query.delegateRoots, Query.members_grouped, Query.members_grouped,
      Query.membersAll_eq_flatMap (roots.map elaborated), List.flatMap_map, List.map_flatMap,
      Query.membersAll_eq_flatMap, List.flatMap_assoc]
    refine congrArg (List.flatMap · roots) (funext fun s => ?_)
    rw [← Query.membersAll_eq_flatMap, (hroot s).members_delegate, hquery]
  · rw [Query.delegateRoots, Query.members_grouped, Query.members_grouped]
    exact Query.isEmpty_grouped

end Engine

end MappedQuery
