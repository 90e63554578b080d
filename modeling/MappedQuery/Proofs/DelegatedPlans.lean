import MappedQuery.Proofs.AlikeRuns
import MappedQuery.Proofs.StaticPaths

/-!
# Plans of queries with components

A planner selects the same columns for a component as for the selection of a delegated field: all
that are mapped for the type, since the join may read any of them. It looks below neither. So the
plan of a query does not depend on whether its delegated fields are components, and what the plan
leaves of the query has the components that are made of what it leaves without them.
-/
namespace MappedQuery

open Sql Sql.Planning

namespace Sql.Planning

variable {α β γ δ : Type}

/-- Two steps of planning give related results and one draft, or fail for one reason. -/
protected def Alike (R : α → β → Prop) (x : Planning α) (y : Planning β) : Prop :=
  ∀ d, MappedQuery.Alike (fun a b => R a.1 b.1 ∧ a.2 = b.2) (x d) (y d)

variable {R : α → β → Prop} {S : γ → δ → Prop}

theorem alike_pure {a : α} {b : β} (h : R a b) : Planning.Alike R (pure a) (pure b) := fun _ =>
  .result ⟨h, rfl⟩

theorem alike_unsupported (q : Query) (p : Spot) :
    Planning.Alike R (unsupported (.query (q.delegateAt p))) (unsupported (.query q)) :=
  fun _ => .fault (by
    rw [Query.delegateAt, Fault.withoutComponents, ConnectorFault.withoutComponents,
      q.withoutComponents_delegate]
    rfl)

theorem Alike.bind {x : Planning α} {y : Planning β} {f : α → Planning γ} {g : β → Planning δ}
    (h : Planning.Alike R x y) (hf : ∀ a b, R a b → Planning.Alike S (f a) (g b)) :
    Planning.Alike S (x >>= f) (y >>= g) := by
  intro d
  change MappedQuery.Alike _ (x d >>= fun p => f p.1 p.2) (y d >>= fun p => g p.1 p.2)
  refine MappedQuery.Alike.bind (h d) fun a b hab => ?_
  rw [hab.2]
  exact hf a.1 b.1 hab.1 b.2

/-- One step before both. -/
theorem alike_after {x : Planning α} {f : α → Planning γ} {g : α → Planning δ}
    (hf : ∀ a d d', Ends x d a d' → Planning.Alike S (f a) (g a)) :
    Planning.Alike S (x >>= f) (x >>= g) := by
  intro d
  change MappedQuery.Alike _ (x d >>= fun p => f p.1 p.2) (x d >>= fun p => g p.1 p.2)
  cases hx : x d with
  | error f => exact .fault rfl
  | ok p => exact hf p.1 d p.2 hx p.2

/-- A field is counted alike, whatever the query below it. -/
theorem alike_count {b : Bool} {a a' : α} {R : α → α → Prop} (h : R a a') :
    Planning.Alike R
      (if b then do modify (fun d => { d with fields := d.fields + 1 }); pure a else pure a)
      (if b then do modify (fun d => { d with fields := d.fields + 1 }); pure a' else pure a') := by
  cases b with
  | true => exact alike_after fun _ _ _ _ => alike_pure h
  | false => exact alike_pure h

end Sql.Planning

namespace Query

theorem hasFilter_delegateAt (q : Query) (p : Spot) : hasFilter (q.delegateAt p) = hasFilter q := by
  cases q with
  | select name alias? bindings child =>
    rcases delegateAt_select_cases p name alias? bindings child with ⟨_, h⟩ | ⟨_, h⟩ <;>
      rw [h] <;> rfl
  | unique child | limit _ child | orderBy _ child => exact hasFilter_delegateAt child p
  | filter _ _ | group _ | narrow _ _ | component _ _ _ | introspect _ | empty => rfl

end Query

variable {r : TableRegistry} {steps : Nat}

/-- The selection of a delegated field is planned as its component is. -/
theorem Sql.Planning.planQuery_delegated {place : Place} {list? : Option ListPlace} {name : String}
    {alias? : Option String} {bindings : List Binding} {child : Query} {d : Delegate Mapping}
    (hname : name ≠ "__typename") (hd : r.resolve place.path place.type name = .delegated d) :
    planQuery r steps place list? (.select name alias? bindings child) =
      (do selectAllColumns r place; pure (.select name alias? bindings child)) := by
  have hmapped : ∃ d, r.fieldMapping? place.path place.type name = some (.delegate d) := by
    unfold Registry.resolve at hd
    split at hd
    · exact ⟨_, ‹_›⟩
    all_goals cases hd
  obtain ⟨d, hmapped⟩ := hmapped
  have hfield : planField r steps place name (hasFilter child) =
      (do selectAllColumns r place; pure none) := by
    unfold planField
    rw [hmapped]
  have hleaf : isLeafField r place name = false := by rw [isLeafField, hmapped]
  rw [planQuery, if_neg hname, hfield, hleaf]
  simp only [bind_assoc, pure_bind, Bool.false_eq_true, if_false]

mutual

/-- A query with components is planned as the query without them. -/
theorem Sql.Planning.alike_planQuery (hfields : r.schema.FieldsNarrow) :
    ∀ (q : Query) (type : String) (place : Place) (list? : Option ListPlace),
      r.schema.Narrower place.type type → q.DelegatesAt ⟨.tables r, type, place.path⟩ →
        Planning.Alike (fun q' q => q' = q.delegateAt ⟨.tables r, type, place.path⟩)
          (planQuery r steps place list? (q.delegateAt ⟨.tables r, type, place.path⟩))
          (planQuery r steps place list? q)
  | .filter p child, type, place, none, hplace, hq =>
    alike_unsupported (.filter p child) ⟨.tables r, type, place.path⟩
  | .filter p child, type, place, some list, hplace, hq => by
    rw [Query.DelegatesAt] at hq
    have hchild := alike_planQuery hfields child type place (some list) hplace hq
    rw [Query.delegateAt, Query.delegate, planQuery, planQuery]
    split
    · refine alike_after fun d _ _ _ => alike_after fun c _ _ _ => alike_after fun _ _ _ _ => ?_
      exact hchild
    · refine alike_after fun _ _ _ _ => ?_
      exact hchild.bind fun _ _ h => alike_pure (congrArg _ h)
  | .unique child, type, place, none, hplace, hq =>
    alike_unsupported (.unique child) ⟨.tables r, type, place.path⟩
  | .unique child, type, place, some list, hplace, hq => by
    rw [Query.DelegatesAt] at hq
    have hchild := alike_planQuery hfields child type place (some list) hplace hq
    rw [Query.delegateAt, Query.delegate, planQuery, planQuery]
    exact hchild.bind fun _ _ h => alike_pure (congrArg _ h)
  | .limit count child, type, place, none, hplace, hq =>
    alike_unsupported (.limit count child) ⟨.tables r, type, place.path⟩
  | .limit count child, type, place, some list, hplace, hq => by
    rw [Query.DelegatesAt] at hq
    have hchild := alike_planQuery hfields child type place (some { list with pushable := false })
      hplace hq
    rw [Query.delegateAt, Query.delegate, planQuery, planQuery]
    exact hchild.bind fun _ _ h => alike_pure (congrArg _ h)
  | .orderBy selections child, type, place, none, hplace, hq =>
    alike_unsupported (.orderBy selections child) ⟨.tables r, type, place.path⟩
  | .orderBy selections child, type, place, some list, hplace, hq => by
    rw [Query.DelegatesAt] at hq
    have hchild := alike_planQuery hfields child type place (some list) hplace hq
    rw [Query.delegateAt, Query.delegate, planQuery, planQuery]
    refine alike_after fun _ _ _ _ => ?_
    exact hchild.bind fun _ _ h => alike_pure (congrArg _ h)
  | .group queries, type, place, list?, hplace, hq => by
    rw [Query.DelegatesAt] at hq
    rw [Query.delegateAt, Query.delegate, planQuery, planQuery]
    exact (alike_planAll hfields queries type place hplace hq).bind fun _ _ h =>
      alike_pure (congrArg _ h)
  | .narrow condition child, type, place, list?, hplace, hq => by
    rw [Query.DelegatesAt] at hq
    have hchild := alike_planQuery hfields child condition { place with type := condition } none
      (.refl _ _) hq
    rw [Query.delegateAt, Query.delegate, planQuery, planQuery]
    exact hchild.bind fun _ _ h => alike_pure (congrArg _ h)
  | .select name alias? bindings child, type, place, list?, hplace, hq => by
    by_cases hname : name = "__typename"
    · subst hname
      rw [Query.delegateAt_typename, planQuery, if_pos rfl]
      exact alike_pure (Query.delegateAt_typename ..).symm
    rw [Query.DelegatesAt] at hq
    obtain ⟨hsettles, hchild⟩ := hq.resolve_left hname
    cases htarget : (Mapping.tables r).delegateTarget? place.path type name with
    | some target =>
      obtain ⟨d, hd, -⟩ := Mapping.delegated_of_delegateTarget? htarget
      obtain ⟨hobject, -⟩ := hsettles.eq_of_delegated (Spot.admits_of_narrower (.refl _ _)) hd
      have hcomponent := Query.delegateAt_of_target (p := ⟨.tables r, type, place.path⟩) hname
        htarget alias? bindings child
      rw [planQuery_delegated hname (hplace.eq hobject ▸ hd), hcomponent, planQuery]
      exact alike_after fun _ _ _ _ => alike_pure hcomponent.symm
    | none =>
      have hselect := Query.delegateAt_of_no_target (p := ⟨.tables r, type, place.path⟩) hname
        htarget alias? bindings
      rw [hselect, planQuery, planQuery, if_neg hname, if_neg hname, Query.hasFilter_delegateAt]
      refine alike_after fun joined? d d' hfield => ?_
      cases joined? with
      | none =>
        dsimp only
        rw [pure_bind, pure_bind]
        exact alike_count (hselect child).symm
      | some joined =>
        rw [Spot.below_of_no_target htarget] at hchild hselect ⊢
        obtain ⟨⟨node, path, joinedType⟩, join⟩ := joined
        cases planField_planned hfield with
        | joined own hops f joined hmapped hf hjoins =>
          cases hjoins.place_eq
          have hbelow := alike_planQuery hfields child (Query.selectedType (.tables r) type name)
            ⟨node, place.path ++ [name], f.type.underlying⟩ (some ⟨.join join, true⟩)
            (hsettles.narrower hfields (Spot.admits_of_narrower hplace) hf) hchild
          exact hbelow.bind fun _ _ h => alike_count (by rw [hselect, h])
  | .component .., _, _, _, _, hq => by
    rw [Query.DelegatesAt] at hq
    exact hq.elim
  | .introspect child, type, place, list?, hplace, hq => by
    exact alike_unsupported (.introspect child) ⟨.tables r, type, place.path⟩
  | .empty, type, place, list?, hplace, hq => by
    rw [Query.delegateAt, Query.delegate, planQuery]
    exact alike_pure rfl

theorem Sql.Planning.alike_planAll (hfields : r.schema.FieldsNarrow) :
    ∀ (queries : List Query) (type : String) (place : Place),
      r.schema.Narrower place.type type →
        Query.AllDelegateAt ⟨.tables r, type, place.path⟩ queries →
        Planning.Alike (fun qs' qs => qs' = Query.delegateAll (.tables r) type place.path qs)
          (planAll r steps place (Query.delegateAll (.tables r) type place.path queries))
          (planAll r steps place queries)
  | [], type, place, hplace, hq => by
    rw [Query.delegateAll, planAll]
    exact alike_pure rfl
  | q :: rest, type, place, hplace, hq => by
    rw [Query.AllDelegateAt] at hq
    rw [Query.delegateAll, planAll, planAll]
    refine (alike_planQuery hfields q type place none hplace hq.1).bind fun q' q h => ?_
    exact (alike_planAll hfields rest type place hplace hq.2).bind fun qs' qs hs =>
      alike_pure (by rw [h, hs, Query.delegateAll, Query.delegateAt])

end

/-- The plan of a query with components is the plan of the query without them, but for the
components in what it leaves. -/
theorem Sql.Plan.alike_build (hfields : r.schema.FieldsNarrow) {p : Spot} {field : String}
    {type : TypeRef} {q : Query} (hmapping : p.mapping = .tables r) (hpath : p.path = [field])
    (htype : r.schema.Narrower type.underlying p.type) (hq : q.DelegatesAt p) :
    MappedQuery.Alike
      (fun a b => a.statement = b.statement ∧ a.nodes = b.nodes ∧ a.fields = b.fields ∧
        a.residual = b.residual.delegateAt p)
      (build r field type (q.delegateAt p)) (build r field type q) := by
  obtain ⟨m, static, path⟩ := p
  obtain rfl : m = .tables r := hmapping
  obtain rfl : path = [field] := hpath
  rw [Plan.build_eq_buildWithin, Plan.build_eq_buildWithin]
  unfold buildWithin
  have hplanning : Planning.Alike (fun q' q => q' = q.delegateAt ⟨.tables r, static, [field]⟩)
      (do
        let label ← nextLabel
        let root ← addNode r [field] type.underlying label
        planQuery r (r.allFields.length + 1) ⟨root, [field], type.underlying⟩
          (some ⟨.condition, true⟩) (q.delegateAt ⟨.tables r, static, [field]⟩))
      (do
        let label ← nextLabel
        let root ← addNode r [field] type.underlying label
        planQuery r (r.allFields.length + 1) ⟨root, [field], type.underlying⟩
          (some ⟨.condition, true⟩) q) :=
    alike_after fun _ _ _ _ => alike_after fun root _ _ _ =>
      alike_planQuery hfields q static ⟨root, [field], type.underlying⟩ _ htype hq
  refine (hplanning .empty).bind fun a b hab => ?_
  obtain ⟨residual', draft'⟩ := a
  obtain ⟨residual, draft⟩ := b
  obtain ⟨hresidual, rfl⟩ : residual' = _ ∧ draft' = draft := hab
  exact .result ⟨rfl, rfl, rfl, hresidual⟩

end MappedQuery
