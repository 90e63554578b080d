import MappedQuery.Proofs.EndingPlans

/-!
# Plans of queries without typenames

A table is joined with its keys and, for an abstract type, its discriminator, whatever is asked of
it, and that is all the name of an object's type is read from. So the planner passes the selections
of `__typename` by: planning a query without them is planning the query and taking them out of
what is left of it. Statement, nodes and leaf fields are the same, and so is the fault if there is
one.
-/
namespace MappedQuery

open Sql Sql.Planning

namespace Query

/-- Whether a query selects the name of an object's type. -/
def isTypename : Query → Bool
  | select name .. => name = "__typename"
  | _ => false

theorem eq_typename {q : Query} (h : q.isTypename = true) :
    ∃ alias? bindings child, q = select "__typename" alias? bindings child := by
  cases q with
  | select name alias? bindings child =>
    obtain rfl : name = "__typename" := of_decide_eq_true h
    exact ⟨alias?, bindings, child, rfl⟩
  | _ => cases h

mutual

/-- The query without the selections of `__typename` on objects. Among the members of a group they
are left out, and the empty query takes the place of one that stands alone. List operations are
looked through only where a list may stand, which is below a field: no object is reached through
others. -/
def withoutTypenames : Query → (list : Bool) → Query
  | select name alias? bindings child, _ =>
    if name = "__typename" then empty
    else select name alias? bindings (child.withoutTypenames true)
  | filter p child, true => filter p (child.withoutTypenames true)
  | filter p child, false => filter p child
  | unique child, true => unique (child.withoutTypenames true)
  | unique child, false => unique child
  | limit n child, true => limit n (child.withoutTypenames true)
  | limit n child, false => limit n child
  | orderBy os child, true => orderBy os (child.withoutTypenames true)
  | orderBy os child, false => orderBy os child
  | group queries, _ => group (allWithoutTypenames queries)
  | narrow type child, _ => narrow type (child.withoutTypenames false)
  | component type field child, _ => component type field (child.withoutTypenames false)
  | introspect child, _ => introspect child
  | empty, _ => empty

def allWithoutTypenames : List Query → List Query
  | [] => []
  | q :: rest =>
    if q.isTypename then allWithoutTypenames rest
    else q.withoutTypenames false :: allWithoutTypenames rest

end

theorem withoutTypenames_typename (alias? : Option String) (bindings : List Binding)
    (child : Query) (list : Bool) :
    (select "__typename" alias? bindings child).withoutTypenames list = empty := by
  rw [withoutTypenames, if_pos rfl]

theorem withoutTypenames_select {name : String} (h : name ≠ "__typename") (alias? : Option String)
    (bindings : List Binding) (child : Query) (list : Bool) :
    (select name alias? bindings child).withoutTypenames list =
      select name alias? bindings (child.withoutTypenames true) := by
  rw [withoutTypenames, if_neg h]

theorem isTypename_withoutTypenames (q : Query) (list : Bool) :
    (q.withoutTypenames list).isTypename = false := by
  cases q with
  | select name alias? bindings child =>
    rw [withoutTypenames]
    split
    · rfl
    · simpa [isTypename]
  | filter _ _ | unique _ | limit _ _ | orderBy _ _ => cases list <;> rfl
  | group _ | narrow _ _ | component _ _ _ | introspect _ | empty => rfl

mutual

/-- Nothing is left to take out. -/
theorem withoutTypenames_idem : ∀ (q : Query) (list : Bool),
    (q.withoutTypenames list).withoutTypenames list = q.withoutTypenames list
  | select name alias? bindings child, list => by
    by_cases hname : name = "__typename"
    · subst hname
      rw [withoutTypenames_typename, withoutTypenames]
    · rw [withoutTypenames_select hname, withoutTypenames_select hname,
        withoutTypenames_idem child true]
  | filter p child, true | unique child, true | limit n child, true | orderBy os child, true => by
    simp only [withoutTypenames, withoutTypenames_idem child true]
  | filter _ _, false | unique _, false | limit _ _, false | orderBy _ _, false => rfl
  | group queries, list => by
    simp only [withoutTypenames, allWithoutTypenames_idem queries]
  | narrow type child, list | component type field child, list => by
    simp only [withoutTypenames, withoutTypenames_idem child false]
  | introspect _, _ | empty, _ => rfl

theorem allWithoutTypenames_idem : ∀ queries : List Query,
    allWithoutTypenames (allWithoutTypenames queries) = allWithoutTypenames queries
  | [] => rfl
  | q :: rest => by
    rw [allWithoutTypenames]
    split
    · exact allWithoutTypenames_idem rest
    · rw [allWithoutTypenames, isTypename_withoutTypenames, if_neg Bool.false_ne_true,
        withoutTypenames_idem q false, allWithoutTypenames_idem rest]

end

example : withoutTypenames (limit 2 (group [field "__typename", field "name",
      narrow "Book" (field "__typename"), (Select.plain "author" (field "__typename")).toQuery]))
      true =
    limit 2 (group [field "name", narrow "Book" empty, field "author"]) := by
  rfl

/-- The list operations of a query are the same without typenames. -/
theorem hasFilter_withoutTypenames : ∀ (q : Query) (list : Bool),
    hasFilter (q.withoutTypenames list) = hasFilter q
  | select name alias? bindings child, list => by
    rw [withoutTypenames]
    split <;> rfl
  | unique child, true | limit _ child, true | orderBy _ child, true =>
    hasFilter_withoutTypenames child true
  | unique _, false | limit _ _, false | orderBy _ _, false => rfl
  | filter _ _, true | filter _ _, false => rfl
  | group _, _ | narrow _ _, _ | component _ _ _, _ | introspect _, _ | empty, _ => rfl

end Query

namespace Sql.Planning

variable {α β : Type} {r : TableRegistry} {steps : Nat}

/-- What follows a step need agree only on the results that it gives. -/
theorem bind_congr_of_ends {x : Planning α} {f g : α → Planning β}
    (h : ∀ d a d', Ends x d a d' → f a = g a) : x >>= f = x >>= g := by
  funext d
  change (x d >>= fun p => f p.1 p.2) = (x d >>= fun p => g p.1 p.2)
  cases hx : x d with
  | error e => rfl
  | ok p => exact congrFun (h d p.1 p.2 hx) p.2

/-- Leaf fields are counted for any query alike. -/
theorem map_count (f : Query → Query) (b : Bool) (q : Query) :
    f <$> (do
      if b then modify fun d => { d with fields := d.fields + 1 }
      pure q : Planning Query) =
      (do
        if b then modify fun d => { d with fields := d.fields + 1 }
        pure (f q)) := by
  cases b <;> simp

/-- What is left of a member of a group selects the name of a type if the member does. -/
theorem isTypename_of_planned {place : Place} {q q' : Query} {d d' : Draft}
    (h : Ends (planQuery r steps place none q) d q' d') : q'.isTypename = q.isTypename := by
  cases planQuery_planned h <;> rfl

mutual

/-- The planner passes typenames by. The recursion is that of planning: a query stands where a list
may stand exactly if there is a place for its list operations. -/
theorem planQuery_withoutTypenames : ∀ (q : Query) (place : Place) (list? : Option ListPlace),
    planQuery r steps place list? (q.withoutTypenames list?.isSome) =
      (·.withoutTypenames list?.isSome) <$> planQuery r steps place list? q
  | .filter p child, place, none => rfl
  | .unique child, place, none => rfl
  | .limit count child, place, none => rfl
  | .orderBy selections child, place, none => rfl
  | .filter p child, place, some list => by
    have ih := planQuery_withoutTypenames child place (some list)
    rw [Option.isSome_some] at ih ⊢
    rw [Query.withoutTypenames, planQuery, planQuery, ih]
    split <;> simp [Query.withoutTypenames]
  | .unique child, place, some list => by
    have ih := planQuery_withoutTypenames child place (some list)
    rw [Option.isSome_some] at ih ⊢
    rw [Query.withoutTypenames, planQuery, planQuery, ih]
    simp [Query.withoutTypenames]
  | .limit count child, place, some list => by
    have ih := planQuery_withoutTypenames child place (some { list with pushable := false })
    rw [Option.isSome_some] at ih ⊢
    rw [Query.withoutTypenames, planQuery, planQuery, ih]
    simp [Query.withoutTypenames]
  | .orderBy selections child, place, some list => by
    have ih := planQuery_withoutTypenames child place (some list)
    rw [Option.isSome_some] at ih ⊢
    rw [Query.withoutTypenames, planQuery, planQuery, ih]
    simp [Query.withoutTypenames]
  | .group queries, place, list? => by
    rw [Query.withoutTypenames, planQuery, planQuery, planAll_withoutTypenames queries place]
    simp [Query.withoutTypenames]
  | .select name alias? bindings child, place, list? => by
    by_cases hname : name = "__typename"
    · subst hname
      rw [Query.withoutTypenames_typename, planQuery, planQuery, if_pos rfl, map_pure,
        Query.withoutTypenames_typename]
    · rw [Query.withoutTypenames_select hname, planQuery, planQuery, if_neg hname, if_neg hname,
        Query.hasFilter_withoutTypenames, map_bind]
      refine bind_congr fun joined? => ?_
      cases joined? with
      | none =>
        simp only [pure_bind]
        rw [map_count, Query.withoutTypenames_select hname]
      | some joined =>
        have ih := planQuery_withoutTypenames child joined.place (some ⟨.join joined.join, true⟩)
        rw [Option.isSome_some] at ih
        simp only [map_bind, ih, bind_map_left]
        refine bind_congr fun planned => ?_
        rw [map_count, Query.withoutTypenames_select hname]
  | .narrow type child, place, list? => by
    have ih := planQuery_withoutTypenames child { place with type } none
    rw [Option.isSome_none] at ih
    rw [Query.withoutTypenames, planQuery, planQuery, ih]
    simp [Query.withoutTypenames]
  | .component type field child, place, list? => by
    rw [Query.withoutTypenames, planQuery, planQuery]
    simp [Query.withoutTypenames]
  | .introspect child, place, list? => rfl
  | .empty, place, list? => by
    rw [Query.withoutTypenames, planQuery, map_pure, Query.withoutTypenames]

theorem planAll_withoutTypenames : ∀ (queries : List Query) (place : Place),
    planAll r steps place (Query.allWithoutTypenames queries) =
      Query.allWithoutTypenames <$> planAll r steps place queries
  | [], place => by
    rw [Query.allWithoutTypenames, planAll, map_pure, Query.allWithoutTypenames]
  | q :: rest, place => by
    have hq := planQuery_withoutTypenames q place none
    have hrest := planAll_withoutTypenames rest place
    rw [Option.isSome_none] at hq
    rw [Query.allWithoutTypenames, planAll, map_bind]
    by_cases htypename : q.isTypename = true
    · obtain ⟨alias?, bindings, child, rfl⟩ := Query.eq_typename htypename
      rw [if_pos htypename, hrest, planQuery, if_pos rfl, pure_bind, map_bind]
      simp [Query.allWithoutTypenames, htypename]
    · rw [if_neg htypename, planAll, hq, hrest, bind_map_left]
      refine bind_congr_of_ends fun d planned d' hplanned => ?_
      have hkept : ¬ planned.isTypename = true := isTypename_of_planned hplanned ▸ htypename
      simp [Query.allWithoutTypenames, hkept]

end

end Sql.Planning

namespace Sql.Plan

/-- The plan of a query without typenames is that of the query, with what it leaves of it without
typenames. -/
theorem buildWithin_withoutTypenames (steps : Nat) (r : TableRegistry) (field : String)
    (type : TypeRef) (child : Query) :
    buildWithin steps r field type (child.withoutTypenames true) =
      (fun p => { p with residual := p.residual.withoutTypenames true }) <$>
        buildWithin steps r field type child := by
  have hplanning (place : Place) :
      planQuery r steps place (some ⟨.condition, true⟩) (child.withoutTypenames true) =
        (·.withoutTypenames true) <$> planQuery r steps place (some ⟨.condition, true⟩) child :=
    planQuery_withoutTypenames child place (some ⟨.condition, true⟩)
  unfold buildWithin
  simp only [hplanning]
  simp [Draft.toPlan]

/-- Selections of `__typename` do not change what is fetched. Without them a root field is planned
exactly if it is planned with them, and fails for the same reason otherwise; the two plans have one
statement, the same nodes and the same number of leaf fields. -/
theorem typenames_fetch_nothing (r : TableRegistry) (field : String) (type : TypeRef)
    (child : Query) :
    (fun plan => (plan.statement, plan.nodes, plan.fields)) <$>
        build r field type (child.withoutTypenames true) =
      (fun plan => (plan.statement, plan.nodes, plan.fields)) <$> build r field type child := by
  rw [build_eq_buildWithin, build_eq_buildWithin, buildWithin_withoutTypenames]
  exact Functor.map_map ..

end Sql.Plan

end MappedQuery
