import MappedQuery.Proofs.Readiness

/-!
# Mappings in which types agree

An abstract type and the types of its objects may map a field in one way only, and declare it with
one type. Then it makes no difference for which of them a field is resolved, and what a query asks
for is what was planned, if its fragments are on object types of their positions.
-/
namespace MappedQuery

open Sql Sql.Planning

namespace Sql

/-- The objects of an abstract type are of object types, which map the fields of the abstract type
as it does and declare them with the same named types. -/
structure TypesAgree (r : TableRegistry) : Prop where
  concrete : ∀ path declared type, CanBe r path declared type → r.schema.isAbstract type = false
  mapped : ∀ path declared type name m, CanBe r path declared type →
    r.fieldMapping? path declared name = some m →
      (∀ column cases, m ≠ .source (.discriminator column cases)) →
        r.fieldMapping? path type name = some m
  declared : ∀ path declared t₁ t₂ name f₁ f₂, ReadAs r path declared t₁ →
    ReadAs r path declared t₂ → r.schema.field? t₁ name = some f₁ →
      r.schema.field? t₂ name = some f₂ → f₁.type.underlying = f₂.type.underlying

variable {r : TableRegistry} {n : TableNode} {path : List String} {declared type name : String}

theorem ReadAs.refl (path : List String) (type : String) : ReadAs r path type type := .inl rfl

/-- An object type stands for itself only. -/
theorem CanBe.eq_of_concrete (h : CanBe r path declared type)
    (hconcrete : r.schema.isAbstract declared = false) : type = declared := by
  rcases h with ⟨-, htype⟩ | ⟨habstract, -⟩
  · exact htype
  · rw [hconcrete] at habstract
    cases habstract

theorem TypesAgree.readAs_of_canBe (hr : TypesAgree r) {t : String}
    (hread : ReadAs r path declared t) (h : CanBe r path t type) : ReadAs r path declared type := by
  rcases hread with rfl | hcanBe
  · exact .inr h
  · rw [h.eq_of_concrete (hr.concrete path declared t hcanBe)]
    exact .inr hcanBe

theorem TableNode.Selected.foresees_of_mapped (hmapped : ∀ name m,
      r.fieldMapping? path declared name = some m →
        (∀ column cases, m ≠ .source (.discriminator column cases)) →
          r.fieldMapping? path type name = some m)
    (h : n.Selected r path declared name) : n.Foresees r path declared type name := by
  have halike : ∀ name m, r.fieldMapping? path declared name = some m →
      (∀ column cases, m ≠ .source (.discriminator column cases)) →
        (∀ sibling ∈ m.required, n.Foresees r path declared type sibling) →
          n.Foresees r path declared type name := by
    intro name m hm hsource hrequired
    have hsame := hmapped name m hm hsource
    refine .alike (hsame.trans hm.symm) fun m' hm' => ?_
    cases hsame.symm.trans hm'
    exact hrequired
  induction h with
  | column hm _ => exact halike _ _ hm (fun _ _ h => by cases h) fun _ hs => by cases hs
  | joined hm _ => exact halike _ _ hm (fun _ _ h => by cases h) fun _ hs => by cases hs
  | computed hm _ ih => exact halike _ _ hm (fun _ _ h => by cases h) ih
  | computedAttribute hm _ ih => exact halike _ _ hm (fun _ _ h => by cases h) ih
  | delegate hm => exact halike _ _ hm (fun _ _ h => by cases h) fun _ hs => by cases hs

/-- A node tells the types of the type that it was added for. -/
theorem TableNode.IsOf.tells (h : n.IsOf r path type) : n.Tells r path type := by
  intro habstract column cases hmapped
  obtain ⟨column', cases', hsource, hselected⟩ := h.discriminator habstract
  rw [Registry.sourceField?, hmapped] at hsource
  cases hsource
  exact hselected

end Sql

/-- Planning leaves the selections of a query as they are. -/
theorem Sql.Planning.QueryPlanned.undelegated {r : TableRegistry} {steps : Nat} {q q' : Query}
    {place : Place} {list? : Option ListPlace} {d d' : Draft}
    (h : QueryPlanned r steps place list? q d q' d') {path : List String} {type : String}
    (hq : q.Undelegated r path type) : q'.Undelegated r path type := by
  induction h generalizing path type with
  | pushed hpushable hcondition hpush hchild ih =>
    rw [Query.Undelegated] at hq
    exact ih hq
  | filter hpushable hterms hchild ih =>
    rw [Query.Undelegated] at hq ⊢
    exact ih hq
  | unique hchild ih =>
    rw [Query.Undelegated] at hq ⊢
    exact ih hq
  | orderBy hterms hchild ih =>
    rw [Query.Undelegated] at hq ⊢
    exact ih hq
  | limit hchild ih =>
    rw [Query.Undelegated] at hq ⊢
    exact ih hq
  | groupCons hfirst hrest ih ihrest =>
    rw [Query.Undelegated, Query.AllUndelegated] at hq ⊢
    refine ⟨ih hq.1, ?_⟩
    have hothers := @ihrest path type
    rw [Query.Undelegated, Query.Undelegated] at hothers
    exact hothers hq.2
  | joined count hname hfield hchild ih =>
    rw [Query.Undelegated] at hq ⊢
    exact fun t ht => ⟨(hq t ht).1, fun g hg => ih ((hq t ht).2 g hg)⟩
  | narrow hchild ih =>
    rw [Query.Undelegated] at hq ⊢
    exact ih hq
  | groupNil | typename | leaf | component | empty => exact hq

section Agreement

variable {r : TableRegistry} {nodes : List TableNode} {types : List (List String × String)}

theorem tells_of_typed (hr : TypesAgree r) (hnodes : NodesTyped r (ReadAs r) nodes types)
    {place : Place} {type : String} (hplace : types[place.node]? = some (place.path, type))
    (hread : ReadAs r place.path type place.type) :
    ∃ n, nodes[place.node]? = some n ∧ n.Tells r place.path place.type := by
  obtain ⟨n, hn, hof⟩ := hnodes.exists_node hplace
  refine ⟨n, hn, ?_⟩
  rcases hread with hsame | hcanBe
  · rw [hsame]
    exact hof.tells
  · intro habstract
    rw [hr.concrete _ _ _ hcanBe] at habstract
    cases habstract

/-- What is selected for the planned type is foreseen for every type that its objects can have. -/
theorem Sql.SelectedAt.foreseen (hr : TypesAgree r) (hnodes : NodesTyped r (ReadAs r) nodes types)
    {place : Place} {type name : String} (hplace : types[place.node]? = some (place.path, type))
    (hread : ReadAs r place.path type place.type) (h : SelectedAt r nodes place name) :
    Query.FieldForeseen r nodes place place.type name := by
  obtain ⟨n, hn, hselected⟩ := h
  obtain ⟨n', hn', htells⟩ := tells_of_typed hr hnodes hplace hread
  cases hn.symm.trans hn'
  refine ⟨n, hn, htells, fun t ht => hselected.foresees_of_mapped fun name m hm hsource => ?_⟩
  exact hr.mapped _ _ _ name m ht hm hsource

theorem Term.Covered.foreseen (hr : TypesAgree r) (hnodes : NodesTyped r (ReadAs r) nodes types)
    {place : Place} {type : String} (hplace : types[place.node]? = some (place.path, type))
    (hread : ReadAs r place.path type place.type) :
    ∀ {t : Term}, t.Covered r nodes place → t.Foreseen r nodes place place.type
  | .const _, _ => trivial
  | .path [_], h => SelectedAt.foreseen hr hnodes hplace hread h
  | .path [], _ => trivial
  | .path (_ :: _ :: _), _ => trivial

mutual

/-- Where types agree, what is covered is foreseen. -/
theorem Query.Covered.foreseen (hr : TypesAgree r)
    (hnodes : NodesTyped r (ReadAs r) nodes types) :
    ∀ {q : Query} {place : Place} {type : String},
      types[place.node]? = some (place.path, type) → ReadAs r place.path type place.type →
      q.Covered r nodes place → q.Narrows r (ReadAs r) place.path type →
      q.Undelegated r place.path place.type → q.Foreseen r nodes place place.type
  | .select name _ _ child, place, type, hplace, hread, hcovered, hnarrows, hq => by
    rw [Query.Covered] at hcovered
    rw [Query.Narrows] at hnarrows
    rw [Query.Undelegated] at hq
    rw [Query.Foreseen]
    refine ⟨tells_of_typed hr hnodes hplace hread, hcovered.imp id fun ⟨hselected, hjoined⟩ => ?_⟩
    refine ⟨hselected.foreseen hr hnodes hplace hread, fun t ht => ?_⟩
    refine ⟨(hq t (.inr ht)).1, fun g hg => ⟨fun _ _ _ _ _ => (hq t (.inr ht)).2 g hg, ?_⟩⟩
    intro own hops n i f hmapped hn hi hf
    obtain ⟨n', hn', -, hforesees⟩ := hselected.foreseen hr hnodes hplace hread
    obtain ⟨own', hops', hplanned⟩ := (hforesees t ht).joined_of hmapped
    obtain ⟨n'', i', f', hn'', hi', hf', hbelow⟩ := hjoined own' hops' hplanned
    cases hn.symm.trans hn''
    cases hi.symm.trans hi'
    cases hf.symm.trans hf'
    obtain ⟨u, h, hu, hh, hnode⟩ := hnodes.child _ n _ type name i hn hplace hi
    have hsame := hr.declared _ _ _ _ _ f g hread (hr.readAs_of_canBe hread ht) hf hg
    have hadded := hr.declared _ _ _ _ _ h f hu hread hh hf
    rw [hadded] at hnode
    rw [← hsame]
    have hchild : ∀ below : Place, below = ⟨i, place.path ++ [name], f.type.underlying⟩ →
        child.Foreseen r nodes below below.type := by
      rintro below rfl
      exact Query.Covered.foreseen hr hnodes hnode (.refl _ _) hbelow
        (hnarrows place.type f hread hf) ((hq place.type (.inl rfl)).2 f hf)
    exact hchild _ rfl
  | .filter p child, place, type, hplace, hread, hcovered, hnarrows, hq => by
    rw [Query.Covered] at hcovered
    rw [Query.Narrows] at hnarrows
    rw [Query.Undelegated] at hq
    rw [Query.Foreseen]
    exact ⟨fun t ht => (hcovered.1 t ht).foreseen hr hnodes hplace hread,
      Query.Covered.foreseen hr hnodes hplace hread hcovered.2 hnarrows hq⟩
  | .orderBy selections child, place, type, hplace, hread, hcovered, hnarrows, hq => by
    rw [Query.Covered] at hcovered
    rw [Query.Narrows] at hnarrows
    rw [Query.Undelegated] at hq
    rw [Query.Foreseen]
    exact ⟨fun s hs => (hcovered.1 s hs).foreseen hr hnodes hplace hread,
      Query.Covered.foreseen hr hnodes hplace hread hcovered.2 hnarrows hq⟩
  | .unique child, place, type, hplace, hread, hcovered, hnarrows, hq => by
    rw [Query.Covered] at hcovered
    rw [Query.Narrows] at hnarrows
    rw [Query.Undelegated] at hq
    rw [Query.Foreseen]
    exact Query.Covered.foreseen hr hnodes hplace hread hcovered hnarrows hq
  | .limit _ child, place, type, hplace, hread, hcovered, hnarrows, hq => by
    rw [Query.Covered] at hcovered
    rw [Query.Narrows] at hnarrows
    rw [Query.Undelegated] at hq
    rw [Query.Foreseen]
    exact Query.Covered.foreseen hr hnodes hplace hread hcovered hnarrows hq
  | .group queries, place, type, hplace, hread, hcovered, hnarrows, hq => by
    rw [Query.Covered] at hcovered
    rw [Query.Narrows] at hnarrows
    rw [Query.Undelegated] at hq
    rw [Query.Foreseen]
    exact Query.CoveredAll.foreseen hr hnodes hplace hread hcovered hnarrows hq
  | .narrow t child, place, type, hplace, hread, hcovered, hnarrows, hq => by
    rw [Query.Covered] at hcovered
    rw [Query.Narrows] at hnarrows
    rw [Query.Undelegated] at hq
    rw [Query.Foreseen]
    have hplaced : types[({ place with type := t } : Place).node]? = some (place.path, type) := hplace
    exact fun _ => Query.Covered.foreseen hr hnodes hplaced hnarrows.1 hcovered hnarrows.2 hq
  | .component .., _, _, _, _, _, _, hq => by
    rw [Query.Undelegated] at hq
    exact hq.elim
  | .introspect _, _, _, _, _, _, _, _ => by
    rw [Query.Foreseen]
    trivial
  | .empty, _, _, _, _, _, _, _ => by
    rw [Query.Foreseen]
    trivial

theorem Query.CoveredAll.foreseen (hr : TypesAgree r)
    (hnodes : NodesTyped r (ReadAs r) nodes types) :
    ∀ {queries : List Query} {place : Place} {type : String},
      types[place.node]? = some (place.path, type) → ReadAs r place.path type place.type →
      Query.CoveredAll r nodes queries place →
      Query.NarrowAll r (ReadAs r) queries place.path type →
      Query.AllUndelegated r queries place.path place.type →
      Query.AllForeseen r nodes queries place place.type
  | [], _, _, _, _, _, _, _ => by
    rw [Query.AllForeseen]
    trivial
  | q :: rest, place, type, hplace, hread, hcovered, hnarrows, hq => by
    rw [Query.CoveredAll] at hcovered
    rw [Query.NarrowAll] at hnarrows
    rw [Query.AllUndelegated] at hq
    rw [Query.AllForeseen]
    exact ⟨Query.Covered.foreseen hr hnodes hplace hread hcovered.1 hnarrows.1 hq.1,
      Query.CoveredAll.foreseen hr hnodes hplace hread hcovered.2 hnarrows.2 hq.2⟩

end

end Agreement

end MappedQuery
