import MappedQuery.Proofs.CompiledRoots
import MappedQuery.Query.Normal

/-!
# Normal forms are canonical

Two queries ask for the same in the same order if they differ in how members are grouped and in
where arguments of different names stand. `Query.Congruent` generates this from the single
rearrangements, anywhere in a query. A query is congruent to its normal form, and congruent queries
have one normal form. So two queries have the same normal form if and only if they are congruent,
and a normal form is its own normal form.
-/
namespace MappedQuery

/-- The bindings of one name, in the order given. -/
def bindingsOf (name : String) (bindings : List Binding) : List Binding :=
  bindings.filter (·.name = name)

namespace Query

section SortedBindings

private theorem order_trans (a b c : Binding) (hab : decide (a.name ≤ b.name) = true)
    (hbc : decide (b.name ≤ c.name) = true) : decide (a.name ≤ c.name) = true := by
  simp only [decide_eq_true_eq] at *
  exact String.le_trans hab hbc

private theorem order_total (a b : Binding) :
    (decide (a.name ≤ b.name) || decide (b.name ≤ a.name)) = true := by
  simpa using String.le_total a.name b.name

/-- Sorting leaves the bindings of one name in their order. -/
theorem bindingsOf_sortBindings (name : String) (bindings : List Binding) :
    bindingsOf name (sortBindings bindings) = bindingsOf name bindings := by
  have hsame : (bindingsOf name bindings).Pairwise fun a b => decide (a.name ≤ b.name) = true := by
    refine List.pairwise_iff_forall_sublist.2 fun {a b} hab => ?_
    have hname : ∀ c ∈ [a, b], c.name = name := fun c hc =>
      of_decide_eq_true (List.mem_filter.1 (hab.subset hc)).2
    simp [hname a, hname b]
  have hstable := (List.sublist_mergeSort order_trans order_total hsame List.filter_sublist).filter
    (·.name = name)
  rw [bindingsOf, List.filter_filter] at hstable
  simp only [Bool.and_self] at hstable
  have hlength := ((perm_sortBindings bindings).filter (·.name = name)).length_eq
  exact (hstable.eq_of_length hlength.symm).symm

theorem sorted_sortBindings (bindings : List Binding) :
    (sortBindings bindings).Pairwise fun a b => a.name ≤ b.name :=
  (List.pairwise_mergeSort order_trans order_total bindings).imp of_decide_eq_true

/-- The first binding of a name stays the first of that name. -/
theorem find?_sortBindings (name : String) (bindings : List Binding) :
    (sortBindings bindings).find? (·.name = name) = bindings.find? (·.name = name) := by
  rw [← List.head?_filter, ← List.head?_filter]
  exact congrArg List.head? (bindingsOf_sortBindings name bindings)

/-- Two lists with their names in order are the same if they agree on each name. -/
theorem eq_of_sorted {as bs : List Binding} (ha : as.Pairwise fun a b => a.name ≤ b.name)
    (hb : bs.Pairwise fun a b => a.name ≤ b.name)
    (h : ∀ name, bindingsOf name as = bindingsOf name bs) : as = bs := by
  induction as generalizing bs with
  | nil =>
    cases bs with
    | nil => rfl
    | cons b bs => simpa [bindingsOf] using h b.name
  | cons a as ih =>
    cases bs with
    | nil => simpa [bindingsOf] using h a.name
    | cons b bs =>
      obtain ⟨hleast, hrest⟩ := List.pairwise_cons.1 ha
      obtain ⟨hleast', hrest'⟩ := List.pairwise_cons.1 hb
      have hmem {cs ds : List Binding} {c : Binding} (hc : c ∈ cs)
          (h : bindingsOf c.name cs = bindingsOf c.name ds) : c ∈ ds := by
        have hof : c ∈ bindingsOf c.name cs := List.mem_filter.2 ⟨hc, by simp⟩
        rw [h] at hof
        exact (List.mem_filter.1 hof).1
      have hab : a.name ≤ b.name := by
        rcases List.mem_cons.1 (hmem List.mem_cons_self (h b.name).symm) with rfl | hb
        · exact String.le_refl _
        · exact hleast b hb
      have hba : b.name ≤ a.name := by
        rcases List.mem_cons.1 (hmem List.mem_cons_self (h a.name)) with rfl | ha
        · exact String.le_refl _
        · exact hleast' a ha
      have hname : b.name = a.name := String.le_antisymm hba hab
      have hheads := h a.name
      simp only [bindingsOf, List.filter_cons, hname, decide_true, if_true, List.cons.injEq]
        at hheads
      obtain ⟨rfl, -⟩ := hheads
      congr 1
      refine ih hrest hrest' fun name => ?_
      have htails := h name
      simp only [bindingsOf, List.filter_cons] at htails
      split at htails
      · exact (List.cons.inj htails).2
      · exact htails

theorem sortBindings_eq_iff {as bs : List Binding} :
    sortBindings as = sortBindings bs ↔ ∀ name, bindingsOf name as = bindingsOf name bs := by
  constructor
  · intro h name
    rw [← bindingsOf_sortBindings, h, bindingsOf_sortBindings]
  · intro h
    refine eq_of_sorted (sorted_sortBindings as) (sorted_sortBindings bs) fun name => ?_
    rw [bindingsOf_sortBindings, bindingsOf_sortBindings, h]

end SortedBindings

/-- The least congruence under which it makes no difference how members are grouped and in which
order arguments of different names stand. All other data of a query count as they are. -/
inductive Congruent : Query → Query → Prop where
  | refl (q : Query) : Congruent q q
  | symm {q q' : Query} (h : Congruent q q') : Congruent q' q
  | trans {q q' q'' : Query} (h : Congruent q q') (h' : Congruent q' q'') : Congruent q q''
  /-- A group in a group stands for its members. -/
  | splice (front inner back : List Query) :
    Congruent (.group (front ++ .group inner :: back)) (.group (front ++ inner ++ back))
  | dropEmpty (front back : List Query) :
    Congruent (.group (front ++ .empty :: back)) (.group (front ++ back))
  | single (q : Query) : Congruent (.group [q]) q
  | none : Congruent (.group []) .empty
  /-- Neighbours of different names may be exchanged. -/
  | exchange (name : String) (alias? : Option String) (front back : List Binding) (a b : Binding)
    (child : Query) (h : a.name ≠ b.name) :
    Congruent (.select name alias? (front ++ a :: b :: back) child)
      (.select name alias? (front ++ b :: a :: back) child)
  | select (name : String) (alias? : Option String) (bindings : List Binding) {q q' : Query}
    (h : Congruent q q') :
    Congruent (.select name alias? bindings q) (.select name alias? bindings q')
  | filter (p : Predicate) {q q' : Query} (h : Congruent q q') :
    Congruent (.filter p q) (.filter p q')
  | unique {q q' : Query} (h : Congruent q q') : Congruent (.unique q) (.unique q')
  | member (front back : List Query) {q q' : Query} (h : Congruent q q') :
    Congruent (.group (front ++ q :: back)) (.group (front ++ q' :: back))
  | narrow (type : String) {q q' : Query} (h : Congruent q q') :
    Congruent (.narrow type q) (.narrow type q')
  | limit (count : Nat) {q q' : Query} (h : Congruent q q') :
    Congruent (.limit count q) (.limit count q')
  | orderBy (selections : List OrderSelection) {q q' : Query} (h : Congruent q q') :
    Congruent (.orderBy selections q) (.orderBy selections q')
  | component (type field : String) {q q' : Query} (h : Congruent q q') :
    Congruent (.component type field q) (.component type field q')
  | introspect {q q' : Query} (h : Congruent q q') : Congruent (.introspect q) (.introspect q')

namespace Congruent

section Bindings

variable (name : String) (alias? : Option String) (child : Query)

/-- A binding may be moved before bindings of other names. -/
theorem bringForward (front before after : List Binding) (b : Binding)
    (h : ∀ a ∈ before, a.name ≠ b.name) :
    Congruent (.select name alias? (front ++ (before ++ b :: after)) child)
      (.select name alias? (front ++ (b :: (before ++ after))) child) := by
  induction before generalizing front with
  | nil => exact .refl _
  | cons a before ih =>
    have hrest := ih (front ++ [a]) fun c hc => h c (List.mem_cons_of_mem _ hc)
    simp only [List.append_assoc, List.cons_append, List.nil_append] at hrest ⊢
    exact hrest.trans (.exchange name alias? front (before ++ after) a b child
      (h a List.mem_cons_self))

/-- Bindings that agree on each name can be brought into one order. -/
theorem rearrange {as bs : List Binding} (front : List Binding)
    (h : ∀ name, bindingsOf name as = bindingsOf name bs) :
    Congruent (.select name alias? (front ++ as) child)
      (.select name alias? (front ++ bs) child) := by
  induction as generalizing front bs with
  | nil =>
    cases bs with
    | nil => exact .refl _
    | cons b bs => simpa [bindingsOf] using h b.name
  | cons a as ih =>
    have hfirst := (h a.name).symm
    simp only [bindingsOf, List.filter_cons, decide_true, if_true] at hfirst
    obtain ⟨before, after, rfl, hbefore, -, hafter⟩ := List.filter_eq_cons_iff.1 hfirst
    have hother : ∀ b ∈ before, b.name ≠ a.name := fun b hb => by simpa using hbefore b hb
    have hrest : ∀ name, bindingsOf name as = bindingsOf name (before ++ after) := by
      intro name
      have hname := h name
      simp only [bindingsOf, List.filter_cons, List.filter_append] at hname hafter ⊢
      by_cases heq : a.name = name
      · subst heq
        have hnone : before.filter (·.name = a.name) = [] := by simpa using hother
        rw [hnone, List.nil_append, ← hafter]
      · simpa [heq] using hname
    have htail := ih (front ++ [a]) hrest
    simp only [List.append_assoc, List.cons_append, List.nil_append] at htail
    exact htail.trans (bringForward name alias? child front before after a hother).symm

end Bindings

section Groups

/-- Congruent groups may replace each other among the members of a group. -/
theorem group_append {as bs : List Query} (h : Congruent (.group as) (.group bs))
    (front back : List Query) :
    Congruent (.group (front ++ as ++ back)) (.group (front ++ bs ++ back)) :=
  ((splice front as back).symm.trans (.member front back h)).trans (splice front bs back)

mutual

/-- A query is the group of its members. -/
theorem group_members : ∀ q : Query, Congruent q (.group q.members)
  | .group queries => group_membersAll queries
  | .empty => Congruent.none.symm
  | .select .. | .filter .. | .unique _ | .narrow .. | .limit .. | .orderBy .. | .component ..
  | .introspect _ => (single _).symm

theorem group_membersAll : ∀ queries : List Query,
    Congruent (.group queries) (.group (membersAll queries))
  | [] => .refl _
  | q :: rest => by
    have hfirst : Congruent (.group (q :: rest)) (.group (q.members ++ rest)) :=
      (Congruent.member [] rest (group_members q)).trans (splice [] q.members rest)
    have hrest := group_append (group_membersAll rest) q.members []
    rw [List.append_nil, List.append_nil] at hrest
    exact hfirst.trans hrest

end

theorem grouped (queries : List Query) : Congruent (.group queries) (Query.grouped queries) := by
  refine (group_membersAll queries).trans ?_
  unfold Query.grouped
  split
  · rename_i hnone
    rw [hnone]
    exact Congruent.none
  · rename_i q hone
    rw [hone]
    exact single q
  · exact .refl _

end Groups

end Congruent

mutual

/-- A query is congruent to its normal form. -/
theorem congruent_normalize : ∀ q : Query, q.Congruent q.normalize
  | .select name alias? bindings child => by
    rw [normalize]
    refine (Congruent.select name alias? bindings (congruent_normalize child)).trans ?_
    exact .rearrange name alias? _ [] fun name => (bindingsOf_sortBindings name bindings).symm
  | .filter p child => .filter p (congruent_normalize child)
  | .unique child => .unique (congruent_normalize child)
  | .group queries => by
    rw [normalize]
    have hmembers := congruent_normalizeAll [] queries
    exact hmembers.trans (.grouped (normalizeAll queries))
  | .narrow type child => .narrow type (congruent_normalize child)
  | .limit count child => .limit count (congruent_normalize child)
  | .orderBy selections child => .orderBy selections (congruent_normalize child)
  | .component type field child => .component type field (congruent_normalize child)
  | .introspect child => .introspect (congruent_normalize child)
  | .empty => .refl _

theorem congruent_normalizeAll : ∀ front queries : List Query,
    Congruent (.group (front ++ queries)) (.group (front ++ normalizeAll queries))
  | _, [] => .refl _
  | front, q :: rest => by
    have hrest := congruent_normalizeAll (front ++ [q.normalize]) rest
    rw [List.append_assoc, List.append_assoc] at hrest
    exact (Congruent.member front rest (congruent_normalize q)).trans hrest

end

theorem grouped_grouped (queries : List Query) : grouped [grouped queries] = grouped queries :=
  grouped_congr (membersAll_singleton_grouped queries)

/-- A normal form is not changed by being put together alone. -/
theorem grouped_normalize (q : Query) : grouped [q.normalize] = q.normalize := by
  cases q with
  | group queries =>
    rw [normalize]
    exact grouped_grouped _
  | _ => simp [normalize, grouped, membersAll, members]

/-- Congruent queries have one normal form. -/
theorem Congruent.normalize_eq {q q' : Query} (h : q.Congruent q') :
    q.normalize = q'.normalize := by
  induction h with
  | refl q => rfl
  | symm _ ih => exact ih.symm
  | trans _ _ ih ih' => exact ih.trans ih'
  | splice front inner back =>
    rw [normalize, normalize]
    apply grouped_congr
    simp [normalizeAll_eq_map, normalize, membersAll, members_grouped]
  | dropEmpty front back =>
    rw [normalize, normalize]
    apply grouped_congr
    simp [normalizeAll_eq_map, normalize, membersAll, members]
  | single q =>
    rw [normalize, normalizeAll, normalizeAll]
    exact grouped_normalize q
  | none => rfl
  | exchange name alias? front back a b child hne =>
    rw [normalize, normalize]
    congr 1
    refine sortBindings_eq_iff.2 fun name => ?_
    simp only [bindingsOf, List.filter_append, List.filter_cons]
    by_cases ha : a.name = name
    · have hb : b.name ≠ name := fun hb => hne (ha.trans hb.symm)
      simp [ha, hb]
    · simp [ha]
  | member front back _ ih =>
    rw [normalize, normalize]
    apply grouped_congr
    simp [normalizeAll_eq_map, membersAll, ih]
  | select name alias? bindings _ ih => rw [normalize, normalize, ih]
  | filter p _ ih => rw [normalize, normalize, ih]
  | unique _ ih => rw [normalize, normalize, ih]
  | narrow type _ ih => rw [normalize, normalize, ih]
  | limit count _ ih => rw [normalize, normalize, ih]
  | orderBy selections _ ih => rw [normalize, normalize, ih]
  | component type field _ ih => rw [normalize, normalize, ih]
  | introspect _ ih => rw [normalize, normalize, ih]

mutual

/-- The members of a normal form are the normal forms of the members, in their order. -/
theorem members_normalize : ∀ q : Query, q.normalize.members = q.members.map normalize
  | .group queries => by
    rw [normalize, members_grouped, members]
    exact membersAll_normalizeAll queries
  | .empty => rfl
  | .select .. | .filter .. | .unique _ | .narrow .. | .limit .. | .orderBy .. | .component ..
  | .introspect _ => by simp [normalize, members]

theorem membersAll_normalizeAll : ∀ queries : List Query,
    membersAll (normalizeAll queries) = (membersAll queries).map normalize
  | [] => rfl
  | q :: rest => by
    rw [normalizeAll, membersAll, membersAll, members_normalize q, membersAll_normalizeAll rest,
      List.map_append]

end

/-- A normal form is its own normal form, and two queries have one normal form if and only if they
are congruent. A normal form finds for a selection the values of arguments that were found before,
and has the members of the query in their order. -/
theorem normal_forms_are_canonical :
    (∀ q : Query, q.normalize.normalize = q.normalize) ∧
    (∀ q q' : Query, q.normalize = q'.normalize ↔ q.Congruent q') ∧
    (∀ s : Select, ∃ t : Select, s.toQuery.normalize = t.toQuery ∧
      ∀ name, t.binding? name = s.binding? name) ∧
    ∀ q : Query, q.normalize.members = q.members.map normalize := by
  refine ⟨fun q => ?_, fun q q' => ⟨fun h => ?_, fun h => h.normalize_eq⟩, fun s => ?_,
    members_normalize⟩
  · exact (congruent_normalize q).normalize_eq.symm
  · have hto := congruent_normalize q
    rw [h] at hto
    exact hto.trans (congruent_normalize q').symm
  · refine ⟨⟨s.name, s.alias?, sortBindings s.bindings, s.child.normalize⟩, ?_, fun name => ?_⟩
    · rw [Select.toQuery, normalize]
      rfl
    · rw [Select.binding?, Select.binding?, find?_sortBindings]

end Query

end MappedQuery
