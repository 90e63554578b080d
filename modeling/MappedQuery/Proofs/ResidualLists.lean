import MappedQuery.Proofs.PushedFilters
import MappedQuery.Proofs.Readings
import MappedQuery.Proofs.SharedJoins
import MappedQuery.Proofs.SortedParts

/-!
# What is left of a list query

A list query is answered in two parts. The filters that no limit stands above are pushed into the
statement, through orderings and requirements of one element; what is left refines the elements that
the statement gives. Both parts together refine as the query does: a filter may go before an
ordering, since what it keeps is sorted alike alone and with the others, and before a requirement,
which only marks the list, but not before a limit.
-/
namespace MappedQuery

open Sql Sql.Planning

namespace Query

/-- The filters of a list query that no limit stands above. -/
def pushedFilters : Query → List Predicate
  | filter p child => p :: child.pushedFilters
  | unique child => child.pushedFilters
  | orderBy _ child => child.pushedFilters
  | _ => []

theorem pushedFilters_of_not_hasFilter {q : Query} (h : hasFilter q = false) :
    q.pushedFilters = [] := by
  induction q using pushedFilters.induct with
  | case1 => cases h
  | case2 child ih => exact ih h
  | case3 selections child ih => exact ih h
  | case4 q hfilter hunique horder => exact pushedFilters.eq_4 q hfilter hunique horder

/-- Every filter of a list query decides each of the elements, and the keys of every ordering can
be sorted. -/
def EvaluatesOn (m : Mapping) (elements : List Cursor) : Query → Prop
  | filter p child => (∀ c ∈ elements, ∃ b, p.holds m c = .ok b) ∧ child.EvaluatesOn m elements
  | orderBy selections child =>
    (∀ s ∈ selections, s.term.SortsOn m elements) ∧ child.EvaluatesOn m elements
  | unique child => child.EvaluatesOn m elements
  | limit _ child => child.EvaluatesOn m elements
  | _ => True

theorem EvaluatesOn.of_subset {m : Mapping} {elements part : List Cursor} (hpart : part ⊆ elements)
    {q : Query} (h : q.EvaluatesOn m elements) : q.EvaluatesOn m part := by
  induction q using EvaluatesOn.induct with
  | case1 p child ih => exact ⟨fun c hc => h.1 c (hpart hc), ih h.2⟩
  | case2 selections child ih =>
    refine ⟨fun s hs => ?_, ih h.2⟩
    obtain ⟨kind, hkind⟩ := h.1 s hs
    exact ⟨kind, fun c hc => hkind c (hpart hc)⟩
  | case3 child ih => exact ih h
  | case4 count child ih => exact ih h
  | case5 q hfilter horder hunique hlimit =>
    rw [EvaluatesOn.eq_5 m part q hfilter horder hunique hlimit]
    trivial

/-- The filters that are pushed when a query is planned. -/
def pushedFrom (q : Query) (list? : Option ListPlace) : List Predicate :=
  if list?.any (·.pushable) then q.pushedFilters else []

theorem pushedFrom_none (q : Query) : q.pushedFrom none = [] := rfl

theorem pushedFrom_of_pushable {list : ListPlace} (h : list.pushable = true) (q : Query) :
    q.pushedFrom (some list) = q.pushedFilters := if_pos h

theorem pushedFrom_of_not_pushable {list : ListPlace} (h : list.pushable = false) (q : Query) :
    q.pushedFrom (some list) = [] := by
  rw [pushedFrom, Option.any_some, h]
  rfl

theorem pushedFrom_of_pushedFilters {q : Query} (h : q.pushedFilters = [])
    (list? : Option ListPlace) : q.pushedFrom list? = [] := by
  rw [pushedFrom, h, ite_self]

end Query

/-- Whether a predicate evaluates and holds. -/
def Predicate.keeps (m : Mapping) (c : Cursor) (p : Predicate) : Bool :=
  match p.holds m c with
  | .ok b => b
  | .error _ => false

/-- The elements that are in accord with filters. -/
def restricted (m : Mapping) (filters : List Predicate) (elements : List Cursor) : List Cursor :=
  elements.filter fun c => filters.all (·.keeps m c)

section Restricted

variable {m : Mapping} {filters : List Predicate} {elements : List Cursor}

@[simp] theorem restricted_nil : restricted m [] elements = elements := by
  simp [restricted]

theorem restricted_cons (p : Predicate) :
    restricted m (p :: filters) elements =
      restricted m filters (elements.filter (p.keeps m)) := by
  simp [restricted, List.filter_filter, Bool.and_comm]

theorem satisfying_eq {p : Predicate} (h : ∀ c ∈ elements, ∃ b, p.holds m c = .ok b) :
    satisfying m p elements = .ok (elements.filter (p.keeps m)) := by
  have hkept : ∀ c ∈ elements, p.holds m c = .ok (p.keeps m c) := fun c hc => by
    obtain ⟨b, hb⟩ := h c hc
    rw [Predicate.keeps, hb]
  simpa using satisfying_map (f := id) hkept

end Restricted

namespace Sql

section Pushing

variable {r : TableRegistry} {d d' d₁ : Draft}

namespace Draft

/-- A draft that has become another still has if the same condition is pushed to both. -/
theorem Keeps.push (h : d.Keeps d₁) (node : Nat) (target : Target) (c : Condition) :
    (d.push node target c).Keeps (d₁.push node target c) := by
  cases target with
  | condition => exact ⟨h.nodes, h.columns, h.joins, congrArg (· ++ [c]) h.conditions⟩
  | join index =>
    refine ⟨fun i n hn => ?_, h.columns, ?_, h.conditions⟩
    · rw [Draft.push, updateNode_nodes] at hn ⊢
      split at hn
      · obtain ⟨x, hx, rfl⟩ := Option.map_eq_some_iff.1 hn
        obtain ⟨y, hy, hgrown, hkeys, -⟩ := h.nodes i x hx
        rw [if_pos ‹_›, hy]
        exact ⟨_, rfl, ⟨hgrown.label, hgrown.table, hgrown.columns, hgrown.children⟩, hkeys, rfl⟩
      · rw [if_neg ‹_›]
        exact h.nodes i n hn
    · obtain ⟨rest, hrest⟩ := h.joins
      change d.joins.modify index _ <+: d₁.joins.modify index _
      rw [← hrest]
      rcases Nat.lt_or_ge index d.joins.length with hlt | hge
      · rw [modify_append_left _ _ hlt]
        exact List.prefix_append _ _
      · obtain ⟨l, rfl⟩ := Nat.exists_eq_add_of_le hge
        rw [modify_append_right, List.modify_eq_self hge]
        exact List.prefix_append _ _

theorem Keeps.pushAll (h : d.Keeps d₁) (node : Nat) (list? : Option ListPlace)
    (conds : List Condition) : (d.pushAll node list? conds).Keeps (d₁.pushAll node list? conds) := by
  cases list? with
  | none => exact h
  | some list =>
    rw [Draft.pushAll, Draft.pushAll]
    induction conds generalizing d d₁ with
    | nil => exact h
    | cons c conds ih => exact ih (h.push node list.target c)

/-- What is pushed to a join and a node that are not there yet leaves a draft as it is. -/
theorem pushAll_eq_self {node index : Nat} (hnode : d.nodes.length ≤ node)
    (hindex : d.joins.length ≤ index) (pushable : Bool) (conds : List Condition) :
    d.pushAll node (some ⟨.join index, pushable⟩) conds = d := by
  rw [Draft.pushAll, foldl_push_join, List.modify_eq_self hindex, List.modify_eq_self hnode]

end Draft

namespace Planning

theorem relatesFields_keeps (r : TableRegistry) (place : Place) :
    RelatesFields r place Draft.Keeps where
  refl := .refl
  trans := .trans
  column := keeps_ownColumn
  joins := Joins.keeps

/-- Selecting what fields are read from keeps a draft. -/
theorem keeps_planField {place : Place} {name : String} {filtered : Bool} {steps : Nat}
    {joined? : Option JoinedField} (h : Ends (planField r steps place name filtered) d joined? d') :
    d.Keeps d' := (relatesFields_keeps r place).planField h

theorem keeps_planTerms {place : Place} {steps : Nat} {ts : List Term} {u : Unit}
    (h : Ends (planTerms r steps place ts) d u d') : d.Keeps d' :=
  (relatesFields_keeps r place).planTerms h

/-- A condition is that of a filter over the table that a place has in a draft. -/
def ConditionAt (r : TableRegistry) (place : Place) (d : Draft) (p : Predicate) (c : Condition) :
    Prop :=
  ∃ n : TableNode, condition r n place p = .ok c ∧
    (place.node < d.nodes.length → n.label = (d.node place.node).label)

theorem ConditionAt.of_label {place : Place} {p : Predicate} {c : Condition}
    (h : place.node < d.nodes.length →
      place.node < d₁.nodes.length ∧ (d₁.node place.node).label = (d.node place.node).label)
    (hc : ConditionAt r place d₁ p c) : ConditionAt r place d p c := by
  obtain ⟨n, hn, hlabel⟩ := hc
  refine ⟨n, hn, fun hi => ?_⟩
  obtain ⟨hi', hsame⟩ := h hi
  exact (hlabel hi').trans hsame

/-- The conditions of filters are pushed, and the draft is kept but for them. -/
def Pushes (r : TableRegistry) (place : Place) (list? : Option ListPlace)
    (filters : List Predicate) (d d' : Draft) : Prop :=
  ∃ conds, List.Forall₂ (ConditionAt r place d) filters conds ∧
    (d.pushAll place.node list? conds).Keeps d'

theorem pushes_nil {place : Place} {list? : Option ListPlace} :
    Pushes r place list? [] d d' ↔ d.Keeps d' := by
  constructor
  · rintro ⟨conds, hconds, hkeeps⟩
    cases hconds
    rwa [Draft.pushAll_nil] at hkeeps
  · intro h
    exact ⟨[], .nil, by rwa [Draft.pushAll_nil]⟩

/-- A query without a filter to push keeps a draft if it is planned. -/
theorem pushes_of_pushedFilters {q : Query} (hq : q.pushedFilters = []) {place : Place}
    {list? : Option ListPlace} :
    Pushes r place list? (q.pushedFrom list?) d d' ↔ d.Keeps d' := by
  rw [Query.pushedFrom_of_pushedFilters hq, pushes_nil]

theorem Pushes.of_keeps {place : Place} {list? : Option ListPlace} {filters : List Predicate}
    (h : d.Keeps d₁) (hpushes : Pushes r place list? filters d₁ d') :
    Pushes r place list? filters d d' := by
  obtain ⟨conds, hconds, hkeeps⟩ := hpushes
  refine ⟨conds, hconds.imp fun p c hc => hc.of_label fun hi => ?_,
    (h.pushAll place.node list? conds).trans hkeeps⟩
  obtain ⟨hi', hgrown, -⟩ := h.node hi
  exact ⟨hi', hgrown.label⟩

/-- Planning pushes the filters that no limit stands above, and keeps the draft otherwise. -/
theorem QueryPlanned.pushes {steps : Nat} {place : Place} {list? : Option ListPlace} {q q' : Query}
    (h : QueryPlanned r steps place list? q d q' d') :
    Pushes r place list? (q.pushedFrom list?) d d' := by
  induction h with
  | @pushed place list p child q d d₁ d' c hpushable hcondition hpush _ ih =>
    obtain rfl := Draft.ends_pushCondition.1 hpush
    obtain ⟨conds, hconds, hkeeps⟩ := ih
    rw [Query.pushedFrom_of_pushable hpushable] at hconds ⊢
    have hgrows := d.grows_push place.node list.target c
    refine ⟨c :: conds, .cons ⟨_, hcondition, fun _ => rfl⟩ (hconds.imp fun _ _ hc => ?_), hkeeps⟩
    exact hc.of_label fun hi => ⟨lt_of_grows hgrows hi, Draft.push_label _ _ _ _ _⟩
  | filter hpushable hterms _ ih =>
    rw [Query.pushedFrom_of_not_pushable hpushable, pushes_nil] at ih ⊢
    exact (keeps_planTerms hterms).trans ih
  | unique _ ih => exact ih
  | orderBy hterms _ ih => exact ih.of_keeps (keeps_planTerms hterms)
  | limit _ ih =>
    rw [Query.pushedFrom_of_not_pushable rfl, pushes_nil] at ih
    exact (pushes_of_pushedFilters rfl).2 ih
  | groupNil | typename | empty => exact (pushes_of_pushedFilters rfl).2 (.refl _)
  | groupCons _ _ ihfirst ihrest =>
    rw [Query.pushedFrom_none, pushes_nil] at ihfirst ihrest
    exact (pushes_of_pushedFilters rfl).2 (ihfirst.trans ihrest)
  | leaf count _ hfield =>
    exact (pushes_of_pushedFilters rfl).2
      ((keeps_planField hfield).trans (Draft.sameJoins_count _ count).keeps)
  | @joined place list? name alias? bindings child q d d₁ d' joined count _ hfield _ ih =>
    refine (pushes_of_pushedFilters rfl).2
      (Draft.Keeps.trans ?_ (Draft.sameJoins_count _ count).keeps)
    cases planField_planned hfield with
    | joined own hops f joined hmapped hf hjoins =>
      have hkeeps := hjoins.keeps
      cases hjoins with
      | again existing hchild hplain hnone =>
        exact (pushes_of_pushedFilters (Query.pushedFilters_of_not_hasFilter hnone)).1 ih
      | first table n e lastHop hnone hlast htable hgained hn hlinked =>
        obtain ⟨conds, -, hbelow⟩ := ih
        have hpos : 0 < hops.length := List.length_pos_of_mem (List.mem_of_getLast? hlast)
        -- the join and the node of the field are new, so the conditions pushed to them change
        -- nothing of the draft before
        have hpushed := hkeeps.pushAll d.nodes.length
          (some ⟨.join (d.joins.length + hops.length - 1), true⟩) conds
        rw [Draft.pushAll_eq_self (Nat.le_refl _) (by omega)] at hpushed
        exact hpushed.trans hbelow
  | narrow _ ih =>
    rw [Query.pushedFrom_none, pushes_nil] at ih
    exact (pushes_of_pushedFilters rfl).2 ih
  | component hcolumns =>
    exact (pushes_of_pushedFilters rfl).2 (sameJoins_selectAllColumns hcolumns).keeps

/-- What a query leaves of elements, its residual leaves of those that are in accord with the
filters that were pushed. -/
theorem QueryPlanned.refine_residual {m : Mapping} {steps : Nat} {place : Place}
    {list? : Option ListPlace} {q q' : Query} (h : QueryPlanned r steps place list? q d q' d')
    {elements : List Cursor} (hq : q.EvaluatesOn m elements) (isUnique : Bool) :
    ∃ left, q.refine m ⟨elements, isUnique⟩ = .ok left ∧
      q'.refine m ⟨restricted m (q.pushedFrom list?) elements, isUnique⟩ = .ok left := by
  induction h generalizing elements isUnique with
  | @pushed place list p child q d d₁ d' c hpushable _ _ _ ih =>
    obtain ⟨hp, hchild⟩ := hq
    obtain ⟨left, hleft, hresidual⟩ := ih
      (hchild.of_subset (List.filter_subset_self elements)) isUnique
    rw [Query.pushedFrom_of_pushable hpushable] at hresidual ⊢
    refine ⟨left, ?_, ?_⟩
    · rw [Query.refine, satisfying_eq hp]
      exact hleft
    · rw [Query.pushedFilters, restricted_cons]
      exact hresidual
  | @filter place list p child q d d₁ d' hpushable _ _ ih =>
    obtain ⟨hp, hchild⟩ := hq
    obtain ⟨left, hleft, hresidual⟩ := ih
      (hchild.of_subset (List.filter_subset_self elements)) isUnique
    rw [Query.pushedFrom_of_not_pushable hpushable, restricted_nil] at hresidual ⊢
    refine ⟨left, ?_, ?_⟩ <;> rw [Query.refine, satisfying_eq hp]
    · exact hleft
    · exact hresidual
  | unique _ ih => exact ih hq true
  | orderBy _ _ ih =>
    obtain ⟨hkeys, hchild⟩ := hq
    obtain ⟨sorted, hperm, hsorted, hpart⟩ := ordered_filter hkeys _
    obtain ⟨left, hleft, hresidual⟩ := ih (hchild.of_subset hperm.subset) isUnique
    refine ⟨left, ?_, ?_⟩ <;> rw [Query.refine]
    · rw [hsorted]
      exact hleft
    · rw [restricted, hpart]
      exact hresidual
  | @limit place list count child q d d' _ ih =>
    obtain ⟨left, hleft, hresidual⟩ := ih
      (hq.of_subset (List.take_subset count elements)) isUnique
    rw [Query.pushedFrom_of_not_pushable rfl, restricted_nil] at hresidual
    rw [Query.pushedFrom_of_pushedFilters rfl, restricted_nil]
    exact ⟨left, hleft, hresidual⟩
  | _ =>
    rw [Query.pushedFrom_of_pushedFilters rfl, restricted_nil]
    exact ⟨⟨elements, isUnique⟩, rfl, rfl⟩

/-- A list query that is planned where filters may be pushed is split: the filters that no limit
stands above become conditions of the statement, and what is left of the query makes of the elements
that are in accord with them what the query makes of all elements. -/
theorem list_query_is_split {m : Mapping} {steps : Nat} {place : Place} {target : Target}
    {q q' : Query} (h : Ends (planQuery r steps place (some ⟨target, true⟩) q) d q' d')
    {elements : List Cursor} (hq : q.EvaluatesOn m elements) (isUnique : Bool) :
    Pushes r place (some ⟨target, true⟩) q.pushedFilters d d' ∧
      ∃ left, q.refine m ⟨elements, isUnique⟩ = .ok left ∧
        q'.refine m ⟨restricted m q.pushedFilters elements, isUnique⟩ = .ok left := by
  have hplanned := planQuery_planned h
  rw [← Query.pushedFrom_of_pushable (show (⟨target, true⟩ : ListPlace).pushable = true from rfl)]
  exact ⟨hplanned.pushes, hplanned.refine_residual hq isUnique⟩

end Planning

end Pushing

end Sql

namespace People

/-- The people in descending order of their names, the nameless first, who are not called b; those
of the first two that have a name, of whom there must be one. -/
def second : Query :=
  .orderBy [⟨.path ["name"], .descending, .first⟩]
    (.filter (.ne (.path ["name"]) (.const (.string "b")))
      (.limit 2 (.filter (.isNull (.path ["name"]) false)
        (.unique (.select "id" none [] .empty)))))

/-- The query without the filter above its limit. -/
def secondResidual : Query :=
  .orderBy [⟨.path ["name"], .descending, .first⟩]
    (.limit 2 (.filter (.isNull (.path ["name"]) false)
      (.unique (.select "id" none [] .empty))))

/-- The draft of a statement on people. -/
def draft : Draft :=
  ⟨[node], [⟨some ⟨"t0", none⟩, "id"⟩, ⟨some ⟨"t0", none⟩, "name"⟩], [], [], 1, 0⟩

/-- The draft with the filter of the query pushed. -/
def secondDraft : Draft :=
  { draft with
    conditions := [.single (.compare .notEqual (.column ⟨some ⟨"t0", none⟩, "name"⟩)
      (.parameter (.text "b")))]
    fields := 1 }

theorem second_evaluatesOn {names : List Cell}
    (hnames : ∀ name ∈ names, name = .null ∨ ∃ s, name = .text s) :
    second.EvaluatesOn (.tables registry) (names.map cursor) := by
  have hvalue : ∀ c ∈ names.map cursor, ∃ v,
      (Term.path ["name"]).value (.tables registry) c = .ok v ∧ v.SortsAs .text := by
    intro c hc
    obtain ⟨name, hname, rfl⟩ := List.mem_map.1 hc
    rcases hnames name hname with rfl | ⟨s, rfl⟩
    · exact ⟨.null, rfl, .inl rfl⟩
    · exact ⟨.string s, rfl, .inr rfl⟩
  refine ⟨fun s hs => ⟨.text, ?_⟩, fun c hc => ?_, fun c hc => ?_, trivial⟩
  · obtain rfl := List.mem_singleton.1 hs
    exact hvalue
  · obtain ⟨v, hv, -⟩ := hvalue c hc
    exact ⟨_, by simp only [Predicate.holds, Predicate.equates, hv]; rfl⟩
  · obtain ⟨v, hv, -⟩ := hvalue c hc
    exact ⟨_, by simp only [Predicate.holds, hv]; rfl⟩

/-- Of a, b, c and a nameless person c is left, whether b goes before the ordering or after it. -/
theorem second_is_split :
    Ends (planQuery registry 0 ⟨0, ["people"], "Person"⟩ (some ⟨.condition, true⟩) second) draft
        secondResidual secondDraft ∧
      second.EvaluatesOn (.tables registry)
        ([.text "a", .null, .text "b", .text "c"].map cursor) ∧
      Pushes registry ⟨0, ["people"], "Person"⟩ (some ⟨.condition, true⟩)
        [.ne (.path ["name"]) (.const (.string "b"))] draft secondDraft ∧
      second.refine (.tables registry)
          ⟨[.text "a", .null, .text "b", .text "c"].map cursor, false⟩ =
        .ok ⟨[cursor (.text "c")], true⟩ ∧
      secondResidual.refine (.tables registry)
          ⟨[.text "a", .null, .text "c"].map cursor, false⟩ =
        .ok ⟨[cursor (.text "c")], true⟩ := by
  have hplanned : Ends (planQuery registry 0 ⟨0, ["people"], "Person"⟩
      (some ⟨.condition, true⟩) second) draft secondResidual secondDraft := by rfl
  have hevaluates : second.EvaluatesOn (.tables registry)
      ([.text "a", .null, .text "b", .text "c"].map cursor) :=
    second_evaluatesOn (by simp)
  obtain ⟨hpushes, left, hleft, hresidual⟩ := list_query_is_split hplanned hevaluates false
  have hall : second.refine (.tables registry)
      ⟨[.text "a", .null, .text "b", .text "c"].map cursor, false⟩ =
        .ok ⟨[cursor (.text "c")], true⟩ := by rfl
  obtain rfl : left = ⟨[cursor (.text "c")], true⟩ := Except.ok.inj (hleft.symm.trans hall)
  exact ⟨hplanned, hevaluates, hpushes, hall, hresidual⟩

end People

end MappedQuery
