import MappedQuery.Proofs.EndlessRequirements

/-!
# Plans that end

Planning a query is cut off where it plans a field and is cut off there; nothing else of it follows
requirements. `Planning.ComesTo` says which fields these are. What is not cut off is planned alike
with more steps, and a field whose planning has no end is one with every number of them. So a plan
that can be had at all is had with as many steps as there are fields, and one more.
-/
namespace MappedQuery.Sql

theorem isCutOff_bind {α β : Type} {x : Except Fault α} {f : α → Except Fault β}
    (hx : isCutOff x = false) (hf : ∀ a, isCutOff (f a) = false) : isCutOff (x >>= f) = false := by
  cases x with
  | error fault => exact hx
  | ok a => exact hf a

namespace Planning

variable {α β : Type} {r : TableRegistry} {steps more : Nat} {place : Place} {d d' : Draft}

/-- Where one step of planning is not cut off, the other comes to the same. -/
def Continues (m m' : Planning α) : Prop := ∀ d, ¬ CutOff m d → m' d = m d

theorem Continues.refl (m : Planning α) : Continues m m := fun _ _ => rfl

theorem Continues.bind {m m' : Planning α} {f f' : α → Planning β} (hm : Continues m m')
    (hf : ∀ a, Continues (f a) (f' a)) : Continues (m >>= f) (m' >>= f') := by
  intro d h
  rw [cutOff_bind, not_or] at h
  change (m' d >>= fun p => f' p.1 p.2) = (m d >>= fun p => f p.1 p.2)
  rw [hm d h.1]
  cases hends : m d with
  | error fault => rfl
  | ok p => exact hf p.1 p.2 fun hcut => h.2 ⟨p.1, p.2, hends, hcut⟩

theorem Continues.then {m m' : Planning α} (hm : Continues m m') (f : α → Planning β) :
    Continues (m >>= f) (m' >>= f) := hm.bind fun a => .refl (f a)

theorem Continues.discard {m m' : Planning α} (hm : Continues m m') :
    Continues (discard m) (discard m') := hm.then fun _ => pure ()

theorem continues_forM {f f' : α → Planning PUnit} (h : ∀ a, Continues (f a) (f' a)) :
    ∀ as : List α, Continues (as.forM f) (as.forM f')
  | [] => .refl _
  | a :: as => (h a).bind fun _ => continues_forM h as

theorem Continues.ends {m m' : Planning α} (hm : Continues m m') {a : α} (h : Ends m d a d') :
    Ends m' d a d' := (hm d (not_cutOff_of_ends h)).trans h

theorem Continues.cutOff {m m' : Planning α} (hm : Continues m m') (h : CutOff m' d) :
    CutOff m d := by
  by_contra hends
  rw [CutOff, hm d hends] at h
  exact hends h

section Steps

theorem continues_planField (h : steps ≤ more) (place : Place) (name : String) (filtered : Bool) :
    Continues (planField r steps place name filtered) (planField r more place name filtered) := by
  induction steps generalizing more name filtered with
  | zero =>
    cases hcomputed : computed? r place name with
    | none =>
      rw [planField_eq_zero hcomputed more]
      exact .refl _
    | some c =>
      intro d hends
      rw [planField_zero hcomputed] at hends
      exact absurd rfl hends
  | succ steps ih =>
    obtain ⟨k, rfl⟩ : ∃ k, more = k + 1 := ⟨more - 1, by omega⟩
    cases hcomputed : computed? r place name with
    | none =>
      rw [planField_eq_zero hcomputed (steps + 1), planField_eq_zero hcomputed (k + 1)]
      exact .refl _
    | some c =>
      rw [planField_succ hcomputed, planField_succ hcomputed]
      exact (continues_forM (fun sibling => (ih (by omega) sibling false).discard) _).then _

theorem continues_planTerms (h : steps ≤ more) (place : Place) (ts : List Term) :
    Continues (planTerms r steps place ts) (planTerms r more place ts) := by
  refine continues_forM (fun t => ?_) ts
  unfold planTerm
  split
  · exact .refl _
  · exact (continues_planField h place _ false).discard
  · exact .refl _

mutual

theorem continues_planQuery (h : steps ≤ more) : ∀ (q : Query) (place : Place)
    (list? : Option ListPlace),
      Continues (planQuery r steps place list? q) (planQuery r more place list? q)
  | .filter p child, place, none => by
    rw [planQuery, planQuery]
    exact .refl _
  | .filter p child, place, some list => by
    rw [planQuery, planQuery]
    split
    · exact (Continues.refl _).bind fun d => (Continues.refl _).bind fun c =>
        (Continues.refl _).bind fun _ => continues_planQuery h child place (some list)
    · exact (continues_planTerms h place p.terms).bind fun _ =>
        (continues_planQuery h child place (some list)).then _
  | .unique child, place, none => by
    rw [planQuery, planQuery]
    exact .refl _
  | .unique child, place, some list => by
    rw [planQuery, planQuery]
    exact (continues_planQuery h child place (some list)).then _
  | .orderBy selections child, place, none => by
    rw [planQuery, planQuery]
    exact .refl _
  | .orderBy selections child, place, some list => by
    rw [planQuery, planQuery]
    exact (continues_planTerms h place _).bind fun _ =>
      (continues_planQuery h child place (some list)).then _
  | .limit count child, place, none => by
    rw [planQuery, planQuery]
    exact .refl _
  | .limit count child, place, some list => by
    rw [planQuery, planQuery]
    exact (continues_planQuery h child place (some { list with pushable := false })).then _
  | .group queries, place, list? => by
    rw [planQuery, planQuery]
    exact (continues_planAll h queries place).then _
  | .select name alias? bindings child, place, list? => by
    rw [planQuery, planQuery]
    split
    · exact .refl _
    · refine (continues_planField h place name (hasFilter child)).bind fun joined? => ?_
      cases joined? with
      | none => exact .refl _
      | some joined => exact (continues_planQuery h child joined.place _).then _
  | .narrow type child, place, list? => by
    rw [planQuery, planQuery]
    exact (continues_planQuery h child { place with type } none).then _
  | .component type field child, place, list? => by
    rw [planQuery, planQuery]
    exact .refl _
  | .empty, place, list? => by
    rw [planQuery, planQuery]
    exact .refl _
  | .introspect child, place, list? => by
    rw [planQuery, planQuery]
    exact .refl _

theorem continues_planAll (h : steps ≤ more) : ∀ (queries : List Query) (place : Place),
    Continues (planAll r steps place queries) (planAll r more place queries)
  | [], place => by
    rw [planAll, planAll]
    exact .refl _
  | q :: rest, place => by
    rw [planAll, planAll]
    exact (continues_planQuery h q place none).bind fun _ => (continues_planAll h rest place).then _

end

end Steps

/-- Planning a query comes to a field, at a place and with what was planned before. The terms of
filters and orderings are planned in turn, and so are the members of a group. -/
inductive ComesTo (r : TableRegistry) (steps : Nat) (p : Place) (name : String) (e : Draft) :
    Place → Option ListPlace → Query → Draft → Prop where
  | pushed {place : Place} {list : ListPlace} {predicate : Predicate} {child : Query} {d : Draft}
    {c : Condition} (hpushable : list.pushable = true)
    (hcondition : condition r (d.node place.node) place predicate = .ok c)
    (h : ComesTo r steps p name e place (some list) child (d.push place.node list.target c)) :
    ComesTo r steps p name e place (some list) (.filter predicate child) d
  | filterTerm {list : ListPlace} {predicate : Predicate} {child : Query} {d : Draft}
    {before after : List Term} (hpushable : list.pushable = false)
    (hterms : predicate.terms = before ++ .path [name] :: after)
    (hbefore : Ends (planTerms r steps p before) d () e) :
    ComesTo r steps p name e p (some list) (.filter predicate child) d
  | filter {place : Place} {list : ListPlace} {predicate : Predicate} {child : Query} {d d₁ : Draft}
    (hpushable : list.pushable = false)
    (hterms : Ends (planTerms r steps place predicate.terms) d () d₁)
    (h : ComesTo r steps p name e place (some list) child d₁) :
    ComesTo r steps p name e place (some list) (.filter predicate child) d
  | unique {place : Place} {list : ListPlace} {child : Query} {d : Draft}
    (h : ComesTo r steps p name e place (some list) child d) :
    ComesTo r steps p name e place (some list) (.unique child) d
  | orderTerm {list : ListPlace} {selections : List OrderSelection} {child : Query} {d : Draft}
    {before after : List Term}
    (hterms : selections.map (·.term) = before ++ .path [name] :: after)
    (hbefore : Ends (planTerms r steps p before) d () e) :
    ComesTo r steps p name e p (some list) (.orderBy selections child) d
  | orderBy {place : Place} {list : ListPlace} {selections : List OrderSelection} {child : Query}
    {d d₁ : Draft} (hterms : Ends (planTerms r steps place (selections.map (·.term))) d () d₁)
    (h : ComesTo r steps p name e place (some list) child d₁) :
    ComesTo r steps p name e place (some list) (.orderBy selections child) d
  | limit {place : Place} {list : ListPlace} {count : Nat} {child : Query} {d : Draft}
    (h : ComesTo r steps p name e place (some { list with pushable := false }) child d) :
    ComesTo r steps p name e place (some list) (.limit count child) d
  | first {place : Place} {list? : Option ListPlace} {q : Query} {rest : List Query} {d : Draft}
    (h : ComesTo r steps p name e place none q d) :
    ComesTo r steps p name e place list? (.group (q :: rest)) d
  | rest {place : Place} {list? : Option ListPlace} {q q' : Query} {rest : List Query}
    {d d₁ : Draft} (hfirst : Ends (planQuery r steps place none q) d q' d₁)
    (h : ComesTo r steps p name e place none (.group rest) d₁) :
    ComesTo r steps p name e place list? (.group (q :: rest)) d
  | field {list? : Option ListPlace} {alias? : Option String} {bindings : List Binding}
    {child : Query} (hname : name ≠ "__typename") :
    ComesTo r steps p name e p list? (.select name alias? bindings child) e
  | joined {place : Place} {list? : Option ListPlace} {field : String} {alias? : Option String}
    {bindings : List Binding} {child : Query} {d d₁ : Draft} {joined : JoinedField}
    (hname : field ≠ "__typename")
    (hfield : Ends (planField r steps place field (hasFilter child)) d (some joined) d₁)
    (h : ComesTo r steps p name e joined.place (some ⟨.join joined.join, true⟩) child d₁) :
    ComesTo r steps p name e place list? (.select field alias? bindings child) d
  | narrow {place : Place} {list? : Option ListPlace} {type : String} {child : Query} {d : Draft}
    (h : ComesTo r steps p name e { place with type } none child d) :
    ComesTo r steps p name e place list? (.narrow type child) d

section Queries

variable {p : Place} {name : String} {e : Draft} {list? : Option ListPlace} {q : Query}

theorem isCutOff_condition (r : TableRegistry) (n : TableNode) (place : Place) (p : Predicate) :
    isCutOff (condition r n place p) = false := by
  induction p with
  | always | never => rfl
  | and p q hp hq | or p q hp hq =>
    exact isCutOff_bind hp fun _ => isCutOff_bind hq fun _ => rfl
  | not p hp => exact isCutOff_bind hp fun _ => rfl
  | eq a b | ne a b =>
    unfold condition
    dsimp only
    split
    · exact isCutOff_bind (by split <;> rfl) fun _ => rfl
    · exact isCutOff_bind (by split <;> rfl) fun _ =>
        isCutOff_bind (by split <;> rfl) fun _ => rfl
  | lt a b | le a b | gt a b | ge a b =>
    unfold condition
    dsimp only
    exact isCutOff_bind (by split <;> rfl) fun _ => isCutOff_bind (by split <;> rfl) fun _ => rfl
  | like t pattern ignoreCase =>
    unfold condition
    dsimp only
    exact isCutOff_bind (by split <;> rfl) fun _ => rfl
  | isIn t values =>
    unfold condition
    dsimp only
    split
    · rename_i f hf
      obtain ⟨v, -, hv⟩ := exists_of_mapM_error hf
      cases v <;> cases hv <;> rfl
    · exact isCutOff_bind (by split <;> rfl) fun _ => rfl
  | isNull t negated =>
    unfold condition
    dsimp only
    cases negated <;> exact isCutOff_bind (by split <;> rfl) fun _ => rfl

theorem cutOff_forM {f : α → Planning PUnit} {as : List α} :
    CutOff (as.forM f) d ↔ ∃ before a after d₁, as = before ++ a :: after ∧
      Ends (before.forM f) d ⟨⟩ d₁ ∧ CutOff (f a) d₁ := by
  induction as generalizing d with
  | nil =>
    refine iff_of_false (conclusive_pure _ d) ?_
    rintro ⟨before, a, after, d₁, hsplit, -⟩
    exact List.append_ne_nil_of_right_ne_nil before (List.cons_ne_nil a after) hsplit.symm
  | cons a as ih =>
    rw [cutOff_forM_cons]
    constructor
    · rintro (h | ⟨d', hfirst, h⟩)
      · exact ⟨[], a, as, d, rfl, ends_forM_nil.2 rfl, h⟩
      · obtain ⟨before, b, after, d₁, rfl, hbefore, h⟩ := ih.1 h
        exact ⟨a :: before, b, after, d₁, rfl, ends_forM_cons.2 ⟨d', hfirst, hbefore⟩, h⟩
    · rintro ⟨before, b, after, d₁, hsplit, hbefore, h⟩
      cases before with
      | nil =>
        cases hsplit
        obtain rfl := ends_forM_nil.1 hbefore
        exact .inl h
      | cons c before =>
        cases hsplit
        obtain ⟨d', hfirst, hbefore⟩ := ends_forM_cons.1 hbefore
        exact .inr ⟨d', hfirst, ih.2 ⟨before, b, after, d₁, rfl, hbefore, h⟩⟩

/-- Planning terms is cut off where the field of one is planned. -/
theorem cutOff_planTerms {ts : List Term} :
    CutOff (planTerms r steps place ts) d ↔ ∃ before name after e,
      ts = before ++ .path [name] :: after ∧ Ends (planTerms r steps place before) d () e ∧
        CutOff (planField r steps place name false) e := by
  unfold planTerms
  rw [cutOff_forM]
  constructor
  · rintro ⟨before, t, after, e, rfl, hbefore, h⟩
    unfold planTerm at h
    split at h
    · exact absurd h (conclusive_pure _ e)
    · exact ⟨before, _, after, e, rfl, hbefore, cutOff_discard.1 h⟩
    · exact absurd h (conclusive_unsupported _ e)
  · rintro ⟨before, name, after, e, rfl, hbefore, h⟩
    exact ⟨before, _, after, e, rfl, hbefore, cutOff_discard.2 h⟩

/-- Whether an object field is filtered makes no difference to what is required. -/
theorem cutOff_planField_congr {filtered filtered' : Bool}
    (h : CutOff (planField r steps place name filtered) d) :
    CutOff (planField r steps place name filtered') d :=
  cutOff_planField_iff.2 (cutOff_planField_iff.1 h)

theorem cutOff_group {queries : List Query} :
    CutOff (planQuery r steps place list? (.group queries)) d ↔
      CutOff (planAll r steps place queries) d := by
  rw [planQuery]
  exact cutOff_map

theorem conclusive_lift {x : Except Fault α} (h : isCutOff x = false) :
    Conclusive (liftM x : Planning α) := by
  intro d hcut
  cases x with
  | error fault => exact Bool.noConfusion (h.symm.trans hcut)
  | ok a => exact Bool.noConfusion hcut

theorem conclusive_pushCondition (node : Nat) (target : Target) (c : Condition) :
    Conclusive (pushCondition node target c) := by
  cases target <;> exact conclusive_modify _

theorem conclusive_count (b : Bool) (q : Query) :
    Conclusive (if b then do modify (fun d => { d with fields := d.fields + 1 }); pure q
      else pure q) := by
  split
  · exact (conclusive_modify _).bind fun _ => conclusive_pure _
  · exact conclusive_pure _

mutual

/-- Where planning a query is cut off, it has come to a field and is cut off there. -/
theorem exists_comesTo_of_cutOff : ∀ {q : Query} {place : Place} {list? : Option ListPlace}
    {d : Draft}, CutOff (planQuery r steps place list? q) d →
      ∃ p name e, ComesTo r steps p name e place list? q d ∧
        CutOff (planField r steps p name false) e
  | .filter p child, place, none, d, h => by
    rw [planQuery] at h
    exact absurd h (conclusive_unsupported _ d)
  | .filter p child, place, some list, d, h => by
    rw [planQuery] at h
    split at h
    · rename_i hpushable
      rcases cutOff_bind.1 h with h | ⟨_, _, hget, h⟩
      · exact absurd h (conclusive_get d)
      obtain ⟨rfl, rfl⟩ := ends_get.1 hget
      rcases cutOff_bind.1 h with h | ⟨c, _, hlift, h⟩
      · exact absurd h (conclusive_lift (isCutOff_condition r _ place p) d)
      obtain ⟨hcondition, rfl⟩ := ends_lift.1 hlift
      rcases cutOff_bind.1 h with h | ⟨_, d₁, hpush, h⟩
      · exact absurd h (conclusive_pushCondition _ _ _ d)
      rw [Draft.ends_pushCondition] at hpush
      subst hpush
      obtain ⟨p', name, e, hcomes, h⟩ := exists_comesTo_of_cutOff h
      exact ⟨p', name, e, .pushed hpushable hcondition hcomes, h⟩
    · rename_i hpushable
      rw [Bool.not_eq_true] at hpushable
      rcases cutOff_bind.1 h with h | ⟨_, d₁, hterms, h⟩
      · obtain ⟨before, name, after, e, hsplit, hbefore, h⟩ := cutOff_planTerms.1 h
        exact ⟨place, name, e, .filterTerm hpushable hsplit hbefore, h⟩
      · obtain ⟨p', name, e, hcomes, h⟩ := exists_comesTo_of_cutOff (cutOff_map.1 h)
        exact ⟨p', name, e, .filter hpushable hterms hcomes, h⟩
  | .unique child, place, none, d, h => by
    rw [planQuery] at h
    exact absurd h (conclusive_unsupported _ d)
  | .unique child, place, some list, d, h => by
    rw [planQuery] at h
    obtain ⟨p, name, e, hcomes, h⟩ := exists_comesTo_of_cutOff (cutOff_map.1 h)
    exact ⟨p, name, e, .unique hcomes, h⟩
  | .orderBy selections child, place, none, d, h => by
    rw [planQuery] at h
    exact absurd h (conclusive_unsupported _ d)
  | .orderBy selections child, place, some list, d, h => by
    rw [planQuery] at h
    rcases cutOff_bind.1 h with h | ⟨_, d₁, hterms, h⟩
    · obtain ⟨before, name, after, e, hsplit, hbefore, h⟩ := cutOff_planTerms.1 h
      exact ⟨place, name, e, .orderTerm hsplit hbefore, h⟩
    · obtain ⟨p, name, e, hcomes, h⟩ := exists_comesTo_of_cutOff (cutOff_map.1 h)
      exact ⟨p, name, e, .orderBy hterms hcomes, h⟩
  | .limit count child, place, none, d, h => by
    rw [planQuery] at h
    exact absurd h (conclusive_unsupported _ d)
  | .limit count child, place, some list, d, h => by
    rw [planQuery] at h
    obtain ⟨p, name, e, hcomes, h⟩ := exists_comesTo_of_cutOff (cutOff_map.1 h)
    exact ⟨p, name, e, .limit hcomes, h⟩
  | .group queries, place, list?, d, h => exists_comesTo_of_cutOff_all (cutOff_group.1 h)
  | .select name alias? bindings child, place, list?, d, h => by
    rw [planQuery] at h
    split at h
    · exact absurd h (conclusive_pure _ d)
    · rename_i hname
      rcases cutOff_bind.1 h with h | ⟨joined?, d₁, hfield, h⟩
      · exact ⟨place, name, d, .field hname, cutOff_planField_congr h⟩
      · cases joined? with
        | none => exact absurd h (conclusive_count _ _ d₁)
        | some joined =>
          rcases cutOff_bind.1 h with h | ⟨planned, d₂, -, h⟩
          · obtain ⟨p, other, e, hcomes, h⟩ := exists_comesTo_of_cutOff h
            exact ⟨p, other, e, .joined hname hfield hcomes, h⟩
          · exact absurd h (conclusive_count _ _ d₂)
  | .narrow type child, place, list?, d, h => by
    rw [planQuery] at h
    obtain ⟨p, name, e, hcomes, h⟩ := exists_comesTo_of_cutOff (cutOff_map.1 h)
    exact ⟨p, name, e, .narrow hcomes, h⟩
  | .component type field child, place, list?, d, h => by
    rw [planQuery] at h
    exact absurd h ((conclusive_selectAllColumns r place).bind (fun _ => conclusive_pure _) d)
  | .empty, place, list?, d, h => by
    rw [planQuery] at h
    exact absurd h (conclusive_pure _ d)
  | .introspect child, place, list?, d, h => by
    rw [planQuery] at h
    exact absurd h (conclusive_unsupported _ d)

theorem exists_comesTo_of_cutOff_all : ∀ {queries : List Query} {place : Place}
    {list? : Option ListPlace} {d : Draft}, CutOff (planAll r steps place queries) d →
      ∃ p name e, ComesTo r steps p name e place list? (.group queries) d ∧
        CutOff (planField r steps p name false) e
  | [], place, list?, d, h => by
    rw [planAll] at h
    exact absurd h (conclusive_pure _ d)
  | q :: rest, place, list?, d, h => by
    rw [planAll] at h
    rcases cutOff_bind.1 h with h | ⟨planned, d₁, hfirst, h⟩
    · obtain ⟨p, name, e, hcomes, h⟩ := exists_comesTo_of_cutOff h
      exact ⟨p, name, e, .first hcomes, h⟩
    · obtain ⟨p, name, e, hcomes, h⟩ := exists_comesTo_of_cutOff_all (cutOff_map.1 h)
      exact ⟨p, name, e, .rest hfirst hcomes, h⟩

end

/-- Where planning a query comes to a field and is cut off there, it is cut off. -/
theorem ComesTo.cutOff (h : ComesTo r steps p name e place list? q d)
    (hcut : CutOff (planField r steps p name false) e) :
    CutOff (planQuery r steps place list? q) d := by
  induction h with
  | pushed hpushable hcondition h ih =>
    rw [planQuery, if_pos hpushable]
    exact cutOff_bind.2 <| .inr ⟨_, _, ends_get.2 ⟨rfl, rfl⟩, cutOff_bind.2 <| .inr
      ⟨_, _, ends_lift.2 ⟨hcondition, rfl⟩, cutOff_bind.2 <| .inr
        ⟨(), _, Draft.ends_pushCondition.2 rfl, ih⟩⟩⟩
  | filterTerm hpushable hterms hbefore =>
    rw [planQuery, if_neg (Bool.eq_false_iff.1 hpushable)]
    exact cutOff_bind.2 <| .inl <| cutOff_planTerms.2 ⟨_, _, _, _, hterms, hbefore, hcut⟩
  | filter hpushable hterms h ih =>
    rw [planQuery, if_neg (Bool.eq_false_iff.1 hpushable)]
    exact cutOff_bind.2 <| .inr ⟨_, _, hterms, cutOff_map.2 ih⟩
  | unique h ih | limit h ih =>
    rw [planQuery]
    exact cutOff_map.2 ih
  | orderTerm hterms hbefore =>
    rw [planQuery]
    exact cutOff_bind.2 <| .inl <| cutOff_planTerms.2 ⟨_, _, _, _, hterms, hbefore, hcut⟩
  | orderBy hterms h ih =>
    rw [planQuery]
    exact cutOff_bind.2 <| .inr ⟨_, _, hterms, cutOff_map.2 ih⟩
  | first h ih =>
    rw [cutOff_group, planAll]
    exact cutOff_bind.2 <| .inl ih
  | rest hfirst h ih =>
    rw [cutOff_group, planAll]
    exact cutOff_bind.2 <| .inr ⟨_, _, hfirst, cutOff_map.2 (cutOff_group.1 ih)⟩
  | field hname =>
    rw [planQuery, if_neg hname]
    exact cutOff_bind.2 <| .inl <| cutOff_planField_congr hcut
  | joined hname hfield h ih =>
    rw [planQuery, if_neg hname]
    exact cutOff_bind.2 <| .inr ⟨_, _, hfield, cutOff_bind.2 <| .inl ih⟩
  | narrow h ih =>
    rw [planQuery]
    exact cutOff_map.2 ih

/-- What planning comes to it comes to with more steps. -/
theorem ComesTo.mono (hle : steps ≤ more) (h : ComesTo r steps p name e place list? q d) :
    ComesTo r more p name e place list? q d := by
  induction h with
  | pushed hpushable hcondition h ih => exact .pushed hpushable hcondition ih
  | filterTerm hpushable hterms hbefore =>
    exact .filterTerm hpushable hterms ((continues_planTerms hle _ _).ends hbefore)
  | filter hpushable hterms h ih =>
    exact .filter hpushable ((continues_planTerms hle _ _).ends hterms) ih
  | unique h ih => exact .unique ih
  | orderTerm hterms hbefore => exact .orderTerm hterms ((continues_planTerms hle _ _).ends hbefore)
  | orderBy hterms h ih => exact .orderBy ((continues_planTerms hle _ _).ends hterms) ih
  | limit h ih => exact .limit ih
  | first h ih => exact .first ih
  | rest hfirst h ih => exact .rest ((continues_planQuery hle _ _ _).ends hfirst) ih
  | field hname => exact .field hname
  | joined hname hfield h ih => exact .joined hname ((continues_planField hle _ _ _).ends hfield) ih
  | narrow h ih => exact .narrow ih

end Queries

section Closed

variable {p : Place} {name : String} {e : Draft} {list? : Option ListPlace} {q q' : Query}

theorem staysClosed_push (d : Draft) (node : Nat) (target : Target) (c : Condition) :
    StaysClosed node d (d.push node target c) := by
  refine fun _ hclosed => ⟨(d.push_length node target c).ge, fun i n' field child hn' hchild => ?_⟩
  obtain ⟨n, hn, -, -, -, hchildren⟩ := Draft.push_nodes hn'
  rw [TableNode.child?, hchildren] at hchild
  rw [Draft.push_length]
  exact hclosed i n field child hn hchild

theorem staysClosed_planTerms {ts : List Term} {u : Unit}
    (h : Ends (planTerms r steps place ts) d u d') : StaysClosed place.node d d' :=
  (relatesFields_staysClosed r place).planTerms h

theorem staysClosed_planField {filtered : Bool} {joined? : Option JoinedField}
    (h : Ends (planField r steps place name filtered) d joined? d') :
    StaysClosed place.node d d' :=
  (relatesFields_staysClosed r place).planField h

/-- The node of a joined object field is one of the draft. -/
theorem lt_of_joined {filtered : Bool} {joined : JoinedField}
    (h : Ends (planField r steps place name filtered) d (some joined) d')
    (hlt : place.node < d.nodes.length) (hclosed : d.Closed) :
    joined.place.node < d'.nodes.length := by
  cases planField_planned h with
  | joined own hops f joined hmapped hf hjoins => exact (hjoins.staysClosed hlt hclosed).2

theorem QueryPlanned.staysClosed (h : QueryPlanned r steps place list? q d q' d') :
    StaysClosed place.node d d' := by
  induction h with
  | pushed hpushable hcondition hpush hchild ih =>
    rw [Draft.ends_pushCondition] at hpush
    subst hpush
    exact (staysClosed_push _ _ _ _).trans ih
  | filter hpushable hterms hchild ih => exact (staysClosed_planTerms hterms).trans ih
  | unique hchild ih => exact ih
  | orderBy hterms hchild ih => exact (staysClosed_planTerms hterms).trans ih
  | limit hchild ih => exact ih
  | groupNil => exact .refl _ _
  | groupCons hfirst hrest ihfirst ihrest => exact ihfirst.trans ihrest
  | typename => exact .refl _ _
  | leaf count hname hfield =>
    have hstays := staysClosed_planField hfield
    exact fun hlt hclosed => hstays hlt hclosed
  | joined count hname hfield hchild ih =>
    intro hlt hclosed
    obtain ⟨hle, hclosed₁⟩ := staysClosed_planField hfield hlt hclosed
    obtain ⟨hle', hclosed'⟩ := ih (lt_of_joined hfield hlt hclosed) hclosed₁
    exact ⟨hle.trans hle', hclosed'⟩
  | narrow hchild ih => exact ih
  | component hcolumns =>
    exact (relatesFields_staysClosed r _).toRelatesColumns.selectAllColumns hcolumns
  | empty => exact .refl _ _

/-- Planning comes to fields of nodes that are there. -/
theorem ComesTo.closed (h : ComesTo r steps p name e place list? q d)
    (hlt : place.node < d.nodes.length) (hclosed : d.Closed) :
    p.node < e.nodes.length ∧ e.Closed := by
  have hstays {place : Place} {d d' : Draft} (h : StaysClosed place.node d d')
      (hlt : place.node < d.nodes.length) (hclosed : d.Closed) :
      place.node < d'.nodes.length ∧ d'.Closed :=
    ⟨hlt.trans_le (h hlt hclosed).1, (h hlt hclosed).2⟩
  induction h with
  | pushed hpushable hcondition h ih =>
    obtain ⟨hlt', hclosed'⟩ := hstays (staysClosed_push _ _ _ _) hlt hclosed
    exact ih hlt' hclosed'
  | filterTerm hpushable hterms hbefore =>
    exact hstays (staysClosed_planTerms hbefore) hlt hclosed
  | filter hpushable hterms h ih =>
    obtain ⟨hlt', hclosed'⟩ := hstays (staysClosed_planTerms hterms) hlt hclosed
    exact ih hlt' hclosed'
  | unique h ih | limit h ih | first h ih | narrow h ih => exact ih hlt hclosed
  | orderTerm hterms hbefore => exact hstays (staysClosed_planTerms hbefore) hlt hclosed
  | orderBy hterms h ih =>
    obtain ⟨hlt', hclosed'⟩ := hstays (staysClosed_planTerms hterms) hlt hclosed
    exact ih hlt' hclosed'
  | rest hfirst h ih =>
    obtain ⟨hlt', hclosed'⟩ := hstays (planQuery_planned hfirst).staysClosed hlt hclosed
    exact ih hlt' hclosed'
  | field hname => exact ⟨hlt, hclosed⟩
  | joined hname hfield h ih =>
    exact ih (lt_of_joined hfield hlt hclosed) (staysClosed_planField hfield hlt hclosed).2

end Closed

section Ends

variable {list? : Option ListPlace} {q : Query}

/-- Planning a query has an end if and only if the walks over what is required by the fields that
it comes to come to no field a second time, and then it ends within as many steps as there are
fields, and one more. -/
theorem planQuery_ends_iff (hlt : place.node < d.nodes.length) (hclosed : d.Closed) :
    ((∃ steps, ¬ CutOff (planQuery r steps place list? q) d) ↔
      ∀ steps p name e, ComesTo r steps p name e place list? q d →
        Walk.NeverReturns (requirements r p) (stops? r p e) name) ∧
    ((∃ steps, ¬ CutOff (planQuery r steps place list? q) d) →
      ¬ CutOff (planQuery r (r.allFields.length + 1) place list? q) d) := by
  have hreturns {steps n : Nat} {p : Place} {name : String} {e : Draft}
      (hcomes : ComesTo r n p name e place list? q d)
      (hends : ¬ CutOff (planQuery r steps place list? q) d) :
      Walk.NeverReturns (requirements r p) (stops? r p e) name := by
    obtain ⟨hlt', hclosed'⟩ := hcomes.closed hlt hclosed
    refine (planField_ends_iff hlt' hclosed' false).1.1 ⟨max steps n, fun hcut => hends ?_⟩
    have hmore := (hcomes.mono (le_max_right steps n)).cutOff hcut
    exact (continues_planQuery (le_max_left steps n) q place list?).cutOff hmore
  have hwithin (h : ∀ steps p name e, ComesTo r steps p name e place list? q d →
      Walk.NeverReturns (requirements r p) (stops? r p e) name) :
      ¬ CutOff (planQuery r (r.allFields.length + 1) place list? q) d := by
    intro hcut
    obtain ⟨p, name, e, hcomes, hfield⟩ := exists_comesTo_of_cutOff hcut
    obtain ⟨hlt', hclosed'⟩ := hcomes.closed hlt hclosed
    exact (planField_ends_iff hlt' hclosed' false).2 (h _ p name e hcomes) hfield
  refine ⟨⟨?_, fun h => ⟨_, hwithin h⟩⟩, ?_⟩
  · rintro ⟨steps, hends⟩ n p name e hcomes
    exact hreturns hcomes hends
  · rintro ⟨steps, hends⟩
    exact hwithin fun n p name e hcomes => hreturns hcomes hends

end Ends

end Planning

open Planning

namespace Plan

variable {r : TableRegistry} {field : String} {type : TypeRef} {child : Query} {steps : Nat}
  {place : Place} {d : Draft}

/-- Planning a root field starts on a draft with the table of its type. -/
def Starts (r : TableRegistry) (field : String) (type : TypeRef) (place : Place) (d : Draft) :
    Prop :=
  ∃ label root d₀, Ends nextLabel .empty label d₀ ∧
    Ends (addNode r [field] type.underlying label) d₀ root d ∧
      place = ⟨root, [field], type.underlying⟩

/-- Planning a root field comes to a field, at a place and with what was planned before. -/
def ComesTo (r : TableRegistry) (steps : Nat) (field : String) (type : TypeRef) (child : Query)
    (p : Place) (name : String) (e : Draft) : Prop :=
  ∃ place d, Starts r field type place d ∧
    Planning.ComesTo r steps p name e place (some ⟨.condition, true⟩) child d

theorem Starts.closed (h : Starts r field type place d) :
    place.node < d.nodes.length ∧ d.Closed := by
  obtain ⟨label, root, d₀, hlabel, hroot, rfl⟩ := h
  obtain ⟨-, rfl⟩ := ends_nextLabel.1 hlabel
  obtain ⟨rfl, table, n, hgained, -⟩ := addNode_gains hroot
  have hnodes : d.nodes = [n] := hgained.nodes
  refine ⟨by rw [hnodes]; exact Nat.zero_lt_one, fun i n' other child hn' hchild => ?_⟩
  rw [hnodes, List.getElem?_singleton] at hn'
  split at hn'
  · cases hn'
    rw [TableNode.child?, hgained.children] at hchild
    cases hchild
  · cases hn'

theorem Starts.eq {place' : Place} {d' : Draft} (h : Starts r field type place d)
    (h' : Starts r field type place' d') : place = place' ∧ d = d' := by
  obtain ⟨label, root, d₀, hlabel, hroot, rfl⟩ := h
  obtain ⟨label', root', d₀', hlabel', hroot', rfl⟩ := h'
  cases hlabel.symm.trans hlabel'
  cases hroot.symm.trans hroot'
  exact ⟨rfl, rfl⟩

theorem isCutOff_buildWithin : isCutOff (buildWithin steps r field type child) = true ↔
    ∃ place d, Starts r field type place d ∧
      CutOff (planQuery r steps place (some ⟨.condition, true⟩) child) d := by
  let planning : Planning Query := do
    let label ← nextLabel
    let root ← addNode r [field] type.underlying label
    planQuery r steps ⟨root, [field], type.underlying⟩ (some ⟨.condition, true⟩) child
  have hbuild : buildWithin steps r field type child =
    planning .empty >>= fun p => pure (p.2.toPlan p.1) := rfl
  have hplanning : isCutOff (buildWithin steps r field type child) = true ↔
      CutOff planning .empty := by
    rw [hbuild, CutOff]
    cases planning .empty with
    | error fault => rfl
    | ok p => rfl
  rw [hplanning]
  constructor
  · intro h
    rcases cutOff_bind.1 h with h | ⟨label, d₀, hlabel, h⟩
    · exact absurd h (conclusive_nextLabel _)
    rcases cutOff_bind.1 h with h | ⟨root, d, hroot, h⟩
    · exact absurd h (conclusive_addNode _ _ _ _ _)
    exact ⟨_, d, ⟨label, root, d₀, hlabel, hroot, rfl⟩, h⟩
  · rintro ⟨_, d, ⟨label, root, d₀, hlabel, hroot, rfl⟩, h⟩
    exact cutOff_bind.2 (.inr ⟨label, d₀, hlabel, cutOff_bind.2 (.inr ⟨root, d, hroot, h⟩)⟩)

/-- Planning a root field has an end if and only if the walks over what is required by the fields
that it comes to come to no field a second time, and then it ends within as many steps as there are
fields, and one more. -/
theorem buildWithin_ends_iff :
    ((∃ steps, isCutOff (buildWithin steps r field type child) = false) ↔
      ∀ steps p name e, ComesTo r steps field type child p name e →
        Walk.NeverReturns (requirements r p) (stops? r p e) name) ∧
    ((∃ steps, isCutOff (buildWithin steps r field type child) = false) →
      isCutOff (buildWithin (r.allFields.length + 1) r field type child) = false) := by
  simp only [← Bool.not_eq_true, isCutOff_buildWithin]
  by_cases hstarts : ∃ place d, Starts r field type place d
  · obtain ⟨place, d, hstart⟩ := hstarts
    have hcut (n : Nat) : (∃ place d, Starts r field type place d ∧
        CutOff (planQuery r n place (some ⟨.condition, true⟩) child) d) ↔
          CutOff (planQuery r n place (some ⟨.condition, true⟩) child) d := by
      refine ⟨?_, fun h => ⟨place, d, hstart, h⟩⟩
      rintro ⟨place', d', hstart', h⟩
      obtain ⟨rfl, rfl⟩ := hstart.eq hstart'
      exact h
    have hcomes {n : Nat} {p : Place} {name : String} {e : Draft} :
        ComesTo r n field type child p name e ↔
          Planning.ComesTo r n p name e place (some ⟨.condition, true⟩) child d := by
      refine ⟨?_, fun h => ⟨place, d, hstart, h⟩⟩
      rintro ⟨place', d', hstart', h⟩
      obtain ⟨rfl, rfl⟩ := hstart.eq hstart'
      exact h
    simp only [hcut, hcomes]
    exact planQuery_ends_iff hstart.closed.1 hstart.closed.2
  · have hnever (n : Nat) : ¬ ∃ place d, Starts r field type place d ∧
        CutOff (planQuery r n place (some ⟨.condition, true⟩) child) d :=
      fun ⟨place, d, hstart, _⟩ => hstarts ⟨place, d, hstart⟩
    exact ⟨iff_of_true ⟨0, hnever 0⟩ fun _ _ _ _ ⟨place, d, hstart, _⟩ =>
      absurd ⟨place, d, hstart⟩ hstarts, fun _ => hnever _⟩

/-- A plan is built within as many steps as there are fields, and one more. -/
theorem build_eq_buildWithin (r : TableRegistry) (field : String) (type : TypeRef)
    (child : Query) :
    build r field type child = buildWithin (r.allFields.length + 1) r field type child := by
  unfold build
  dsimp only
  split
  · rename_i hcut
    obtain ⟨steps, hsteps, henough⟩ :=
      (attempt r field type child (r.allFields.length + 1)).eq_outcome
    have hends : isCutOff (buildWithin steps r field type child) = true := by
      by_contra hends
      have hwithin := buildWithin_ends_iff.2 ⟨steps, Bool.eq_false_iff.2 hends⟩
      exact Bool.noConfusion (hwithin.symm.trans hcut)
    rw [hsteps] at hends
    rw [← hsteps, henough hends]
  · rfl

/-- A plan is a draft of the table of its root, on which the query was planned. -/
theorem build_planned {plan : Plan} (h : build r field type child = .ok plan) :
    ∃ table n d d', Draft.Gained { Draft.empty with labels := 1 } (labelOf 0) table d n ∧
      n.IsOf r [field] type.underlying ∧
      QueryPlanned r (r.allFields.length + 1) ⟨0, [field], type.underlying⟩
        (some ⟨.condition, true⟩) child d plan.residual d' ∧
      plan = d'.toPlan plan.residual :=
  buildWithin_planned (build_eq_buildWithin r field type child ▸ h)

end Plan

end MappedQuery.Sql
