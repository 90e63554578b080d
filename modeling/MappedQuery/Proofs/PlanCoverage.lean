import MappedQuery.Proofs.EndingPlans

/-!
# What a plan covers

A query is covered at a node if every field that it selects there has been selected for the node:
a column has a place, an object field a child that covers the query below it, and a computed field
has the siblings that it requires. Planning covers the query that it leaves, at the place where it
plans it and for the type that it plans it as. Later steps only add to a draft, so what is covered
stays covered.
-/
namespace MappedQuery.Sql

/-- A node has what a field of a type is read from. -/
inductive TableNode.Selected (n : TableNode) (r : TableRegistry) (path : List String)
    (type : String) : String → Prop where
  | column {name own : String} {column : ColumnRef} {isKey hidden : Bool}
    (hmapped : r.fieldMapping? path type name = some (.source (.column own column isKey hidden)))
    (hplace : (n.column? column.column).isSome = true) : Selected n r path type name
  | joined {name own : String} {hops : List Hop}
    (hmapped : r.fieldMapping? path type name = some (.source (.joined own hops)))
    (hchild : (n.child? name).isSome = true) : Selected n r path type name
  | computed {name : String} {c : ComputedField} {hidden : Bool}
    (hmapped : r.fieldMapping? path type name = some (.computed c hidden))
    (hrequired : ∀ sibling ∈ c.required, Selected n r path type sibling) :
    Selected n r path type name
  | computedAttribute {name : String} {c : ComputedField}
    (hmapped : r.fieldMapping? path type name = some (.computedAttribute c))
    (hrequired : ∀ sibling ∈ c.required, Selected n r path type sibling) :
    Selected n r path type name
  | delegate {name : String} {d : Delegate Mapping}
    (hmapped : r.fieldMapping? path type name = some (.delegate d)) : Selected n r path type name

theorem TableNode.Selected.mono {n n' : TableNode} {r : TableRegistry} {path : List String}
    {type name : String} (h : n.Selected r path type name) (hgrown : n.Grown n') :
    n'.Selected r path type name := by
  induction h with
  | column hmapped hplace =>
    obtain ⟨place, hplace⟩ := Option.isSome_iff_exists.1 hplace
    exact .column hmapped (Option.isSome_iff_exists.2 ⟨place, hgrown.column? hplace⟩)
  | joined hmapped hchild =>
    obtain ⟨child, hchild⟩ := Option.isSome_iff_exists.1 hchild
    exact .joined hmapped (Option.isSome_iff_exists.2 ⟨child, hgrown.child? hchild⟩)
  | computed hmapped _ ih => exact .computed hmapped ih
  | computedAttribute hmapped _ ih => exact .computedAttribute hmapped ih
  | delegate hmapped => exact .delegate hmapped

/-- A field that the source holds is in a column that has a place or in a child. -/
theorem TableNode.Selected.of_source {n : TableNode} {r : TableRegistry} {path : List String}
    {type name : String} {f : TableField} (h : n.Selected r path type name)
    (hmapped : r.fieldMapping? path type name = some (.source f)) :
    (∃ own column isKey hidden, f = .column own column isKey hidden ∧
      (n.column? column.column).isSome = true) ∨
    (∃ own hops, f = .joined own hops ∧ (n.child? name).isSome = true) := by
  cases h with
  | column hcolumn hplace =>
    cases hcolumn.symm.trans hmapped
    exact .inl ⟨_, _, _, _, rfl, hplace⟩
  | joined hjoined hchild =>
    cases hjoined.symm.trans hmapped
    exact .inr ⟨_, _, rfl, hchild⟩
  | computed hother => cases hother.symm.trans hmapped
  | computedAttribute hother => cases hother.symm.trans hmapped
  | delegate hother => cases hother.symm.trans hmapped

/-- The siblings that a field requires are selected with it. -/
theorem TableNode.Selected.required {n : TableNode} {r : TableRegistry} {path : List String}
    {type name : String} {m : FieldMapping TableField Unit Mapping}
    (h : n.Selected r path type name) (hmapped : r.fieldMapping? path type name = some m) :
    ∀ sibling ∈ m.required, n.Selected r path type sibling := by
  intro sibling hsibling
  cases h with
  | column hcolumn =>
    cases hcolumn.symm.trans hmapped
    cases hsibling
  | joined hjoined =>
    cases hjoined.symm.trans hmapped
    cases hsibling
  | computed hcomputed hrequired =>
    cases hcomputed.symm.trans hmapped
    exact hrequired sibling hsibling
  | computedAttribute hcomputed hrequired =>
    cases hcomputed.symm.trans hmapped
    exact hrequired sibling hsibling
  | delegate hdelegate =>
    cases hdelegate.symm.trans hmapped
    cases hsibling

/-- Some node of a list has what a field is read from at a place. -/
def SelectedAt (r : TableRegistry) (nodes : List TableNode) (place : Place) (name : String) :
    Prop :=
  ∃ n, nodes[place.node]? = some n ∧ n.Selected r place.path place.type name

/-- A draft has grown, and its nodes still have types. -/
structure Draft.Extends (r : TableRegistry) (planned : List String → String → String → Prop)
    (place : Place) (type : String) (d d' : Draft) : Prop where
  grows : d.Grows d'
  typed : ∀ types, NodesTyped r planned d.nodes types →
    types[place.node]? = some (place.path, type) →
      ∃ types', types <+: types' ∧ NodesTyped r planned d'.nodes types'

section Extends

variable {r : TableRegistry} {planned : List String → String → String → Prop} {place : Place}
  {type name : String} {d d' d'' : Draft}

theorem getElem?_of_isPrefix {α : Type} {l l' : List α} (h : l <+: l') {i : Nat} {a : α}
    (hi : l[i]? = some a) : l'[i]? = some a := by
  obtain ⟨rest, rfl⟩ := h
  rw [List.getElem?_append_left (List.getElem?_eq_some_iff.1 hi).1]
  exact hi

theorem SelectedAt.mono (h : SelectedAt r d.nodes place name) (hgrows : d.Grows d') :
    SelectedAt r d'.nodes place name := by
  obtain ⟨n, hn, hselected⟩ := h
  obtain ⟨n', hn', hgrown, -⟩ := hgrows.nodes _ n hn
  exact ⟨n', hn', hselected.mono hgrown⟩

namespace Draft.Extends

theorem refl (d : Draft) : Extends r planned place type d d :=
  ⟨.refl d, fun types htyped _ => ⟨types, List.prefix_refl _, htyped⟩⟩

theorem trans (h : Extends r planned place type d d') (h' : Extends r planned place type d' d'') :
    Extends r planned place type d d'' := by
  refine ⟨h.grows.trans h'.grows, fun types htyped hplace => ?_⟩
  obtain ⟨types', hextends, htyped'⟩ := h.typed types htyped hplace
  obtain ⟨types'', hextends', htyped''⟩ :=
    h'.typed types' htyped' (getElem?_of_isPrefix hextends hplace)
  exact ⟨types'', hextends.trans hextends', htyped''⟩

/-- Nodes that gain columns only. -/
theorem of_grown (hgrows : d.Grows d') (hlength : d'.nodes.length = d.nodes.length)
    (hgrown : ∀ (i : Nat) (n' : TableNode), d'.nodes[i]? = some n' → ∃ n, d.nodes[i]? = some n ∧
      n.Grown n' ∧ n'.keys = n.keys ∧ n'.children = n.children) :
    Extends r planned place type d d' :=
  ⟨hgrows, fun types htyped _ => ⟨types, List.prefix_refl _, htyped.of_grown hlength hgrown⟩⟩

end Draft.Extends

end Extends

namespace Planning

variable {r : TableRegistry} {planned : List String → String → String → Prop} {place : Place}
  {type name : String} {d d' : Draft}

theorem extends_ownColumn {i column : Nat} {field : String} {c : ColumnRef}
    (h : Ends (ownColumn i field c) d column d') : Draft.Extends r planned place type d d' := by
  rcases (ends_ownColumn.1 h).2 with ⟨-, rfl⟩ | ⟨-, -, rfl⟩
  · exact .refl d'
  · refine .of_grown (d.keeps_addColumn i c.column).grows (List.length_modify ..) fun l n' hn' => ?_
    obtain ⟨n, hn, heq⟩ := Draft.addColumn_nodes hn'
    rcases heq with rfl | ⟨-, rfl⟩
    · exact ⟨n', hn, .refl n', rfl, rfl⟩
    · exact ⟨n, hn, n.grown_addColumn _ _, rfl, rfl⟩

theorem extends_selectAllColumns {u : Unit} (h : Ends (selectAllColumns r place) d u d') :
    Draft.Extends r planned place type d d' :=
  RelatesColumns.selectAllColumns ⟨.refl, .trans, extends_ownColumn⟩ h

theorem Joins.extends {f : FieldDefinition} {hops : List Hop} {filtered : Bool}
    {joined : JoinedField} (h : Joins r place name f.type.underlying hops filtered d joined d')
    (hplanned : planned place.path type place.type)
    (hf : r.schema.field? place.type name = some f) :
    Draft.Extends r planned place type d d' := by
  refine ⟨h.keeps.grows, fun types htyped hplace => ?_⟩
  obtain ⟨types', hextends, htyped', -⟩ := h.typed htyped hplace hplanned hf
  exact ⟨types', hextends, htyped'⟩

/-- Planning a field selects what it is read from. -/
theorem planField_selects {steps : Nat} {filtered : Bool} {joined? : Option JoinedField}
    (hplanned : planned place.path type place.type)
    (hnode : ∃ n, d.nodes[place.node]? = some n)
    (h : Ends (planField r steps place name filtered) d joined? d') :
    Draft.Extends r planned place type d d' ∧ SelectedAt r d'.nodes place name := by
  induction steps using Nat.strongRecOn generalizing name filtered d joined? d' with
  | ind steps ih =>
    obtain ⟨n, hn⟩ := hnode
    cases planField_planned h with
    | column own column isKey hidden position hmapped hcolumn =>
      obtain ⟨n', hn', hplace⟩ := column?_ownColumn hn hcolumn
      exact ⟨extends_ownColumn hcolumn, n', hn',
        .column hmapped (Option.isSome_iff_exists.2 ⟨_, hplace⟩)⟩
    | joined own hops f joined hmapped hf hjoins =>
      obtain ⟨n', hn', hchild⟩ := hjoins.child? hn
      exact ⟨hjoins.extends hplanned hf, n', hn',
        .joined hmapped (Option.isSome_iff_exists.2 ⟨_, hchild⟩)⟩
    | @computed steps _ _ c hmapped hrequired =>
      obtain ⟨hextends, hall⟩ := ends_forM (R := Draft.Extends r planned place type)
        (P := fun sibling d => SelectedAt r d.nodes place sibling) .refl .trans
        (fun hd hselected => hselected.mono hd.grows)
        (fun sibling _ d₁ d₂ hd hstep => by
          obtain ⟨joined?, hstep⟩ := ends_discard.1 hstep
          obtain ⟨n₁, hn₁, -⟩ := hd.grows.nodes _ n hn
          exact ih steps (Nat.lt_succ_self _) ⟨n₁, hn₁⟩ hstep) hrequired
      obtain ⟨n', hn', -⟩ := hextends.grows.nodes _ n hn
      have hselected : ∀ sibling ∈ c.required, n'.Selected r place.path place.type sibling := by
        intro sibling hsibling
        obtain ⟨m, hm, hselected⟩ := hall sibling hsibling
        rw [hn'] at hm
        cases hm
        exact hselected
      refine ⟨hextends, n', hn', ?_⟩
      rcases hmapped with ⟨hidden, hmapped⟩ | hmapped
      · exact .computed hmapped hselected
      · exact .computedAttribute hmapped hselected
    | delegate delegate hmapped hcolumns =>
      have hextends : Draft.Extends r planned place type d d' :=
        extends_selectAllColumns hcolumns
      obtain ⟨n', hn', -⟩ := hextends.grows.nodes _ n hn
      exact ⟨hextends, n', hn', .delegate hmapped⟩

theorem extends_pushCondition {i : Nat} {target : Target} {c : Condition} {u : Unit}
    (h : Ends (pushCondition i target c) d u d') : Draft.Extends r planned place type d d' := by
  obtain rfl := Draft.ends_pushCondition.1 h
  refine .of_grown (d.grows_push i target c) (d.push_length i target c) fun j n' hn' => ?_
  obtain ⟨n, hn, hgrown, hkeys, -, hchildren⟩ := Draft.push_nodes hn'
  exact ⟨n, hn, hgrown, hkeys, hchildren⟩

end Planning

end MappedQuery.Sql

namespace MappedQuery

open Sql Sql.Planning

/-- What an operand of an evaluated predicate or ordering reads at a place is selected. -/
def Term.Covered (r : TableRegistry) (nodes : List TableNode) (place : Place) : Term → Prop
  | .const _ => True
  | .path [name] => SelectedAt r nodes place name
  | .path _ => False

mutual

/-- All that a query selects at a place is selected for a node, and so is what it selects below
that. -/
def Query.Covered (r : TableRegistry) (nodes : List TableNode) : Query → Place → Prop
  | .select name _ _ child, place =>
    name = "__typename" ∨
      SelectedAt r nodes place name ∧
        ∀ own hops, r.fieldMapping? place.path place.type name = some (.source (.joined own hops)) →
          ∃ n i f, nodes[place.node]? = some n ∧ n.child? name = some i ∧
            r.schema.field? place.type name = some f ∧
            child.Covered r nodes ⟨i, place.path ++ [name], f.type.underlying⟩
  | .filter p child, place =>
    (∀ t ∈ p.terms, Term.Covered r nodes place t) ∧ child.Covered r nodes place
  | .orderBy selections child, place =>
    (∀ s ∈ selections, Term.Covered r nodes place s.term) ∧ child.Covered r nodes place
  | .unique child, place => child.Covered r nodes place
  | .limit _ child, place => child.Covered r nodes place
  | .group queries, place => Query.CoveredAll r nodes queries place
  | .narrow type child, place => child.Covered r nodes { place with type }
  | .component .., _ => True
  | .introspect _, _ => False
  | .empty, _ => True

def Query.CoveredAll (r : TableRegistry) (nodes : List TableNode) : List Query → Place → Prop
  | [], _ => True
  | q :: rest, place => q.Covered r nodes place ∧ Query.CoveredAll r nodes rest place

end

mutual

/-- The fragments of a query are on types that the objects of their position may be planned as. -/
def Query.Narrows (r : TableRegistry) (planned : List String → String → String → Prop) :
    Query → List String → String → Prop
  | .select name _ _ child, path, type =>
    ∀ t f, planned path type t → r.schema.field? t name = some f →
      child.Narrows r planned (path ++ [name]) f.type.underlying
  | .filter _ child, path, type => child.Narrows r planned path type
  | .orderBy _ child, path, type => child.Narrows r planned path type
  | .unique child, path, type => child.Narrows r planned path type
  | .limit _ child, path, type => child.Narrows r planned path type
  | .group queries, path, type => Query.NarrowAll r planned queries path type
  | .narrow t child, path, type => planned path type t ∧ child.Narrows r planned path type
  | .component .., _, _ => True
  | .introspect _, _, _ => True
  | .empty, _, _ => True

def Query.NarrowAll (r : TableRegistry) (planned : List String → String → String → Prop) :
    List Query → List String → String → Prop
  | [], _, _ => True
  | q :: rest, path, type => q.Narrows r planned path type ∧ Query.NarrowAll r planned rest path type

end

theorem Query.covered_group_cons {r : TableRegistry} {nodes : List TableNode} {q : Query}
    {rest : List Query} {place : Place} :
    (Query.group (q :: rest)).Covered r nodes place ↔
      q.Covered r nodes place ∧ (Query.group rest).Covered r nodes place := by
  simp only [Query.Covered, Query.CoveredAll]

theorem Query.narrows_group_cons {r : TableRegistry}
    {planned : List String → String → String → Prop} {q : Query} {rest : List Query}
    {path : List String} {type : String} :
    (Query.group (q :: rest)).Narrows r planned path type ↔
      q.Narrows r planned path type ∧ (Query.group rest).Narrows r planned path type := by
  simp only [Query.Narrows, Query.NarrowAll]

section Covers

variable {r : TableRegistry} {planned : List String → String → String → Prop}
  {d d' : Draft} {place : Place} {type : String}

theorem Term.Covered.mono (hgrows : d.Grows d') :
    ∀ {t : Term}, t.Covered r d.nodes place → t.Covered r d'.nodes place
  | .const _, _ => trivial
  | .path [_], h => SelectedAt.mono h hgrows
  | .path [], h => h.elim
  | .path (_ :: _ :: _), h => h.elim

mutual

theorem Query.Covered.mono (hgrows : d.Grows d') :
    ∀ {q : Query} {place : Place}, q.Covered r d.nodes place → q.Covered r d'.nodes place
  | .select name _ _ child, place, h => by
    rw [Query.Covered] at h ⊢
    refine h.imp id fun ⟨hselected, hchild⟩ => ⟨hselected.mono hgrows, fun own hops hmapped => ?_⟩
    obtain ⟨n, i, f, hn, hi, hf, hcovered⟩ := hchild own hops hmapped
    obtain ⟨n', hn', hgrown, -⟩ := hgrows.nodes _ n hn
    exact ⟨n', i, f, hn', hgrown.child? hi, hf, Query.Covered.mono hgrows hcovered⟩
  | .filter p child, place, h => by
    rw [Query.Covered] at h ⊢
    exact ⟨fun t ht => Term.Covered.mono hgrows (h.1 t ht), Query.Covered.mono hgrows h.2⟩
  | .orderBy selections child, place, h => by
    rw [Query.Covered] at h ⊢
    exact ⟨fun s hs => Term.Covered.mono hgrows (h.1 s hs), Query.Covered.mono hgrows h.2⟩
  | .unique child, place, h => by
    rw [Query.Covered] at h ⊢
    exact Query.Covered.mono hgrows h
  | .limit _ child, place, h => by
    rw [Query.Covered] at h ⊢
    exact Query.Covered.mono hgrows h
  | .group queries, place, h => by
    rw [Query.Covered] at h ⊢
    exact Query.CoveredAll.mono hgrows h
  | .narrow type child, place, h => by
    rw [Query.Covered] at h ⊢
    exact Query.Covered.mono hgrows h
  | .component .., _, _ => by
    rw [Query.Covered]
    trivial
  | .introspect _, _, h => by
    rw [Query.Covered] at h
    exact h.elim
  | .empty, _, _ => by
    rw [Query.Covered]
    trivial

theorem Query.CoveredAll.mono (hgrows : d.Grows d') :
    ∀ {queries : List Query} {place : Place}, Query.CoveredAll r d.nodes queries place →
      Query.CoveredAll r d'.nodes queries place
  | [], _, _ => by
    rw [Query.CoveredAll]
    trivial
  | q :: rest, place, h => by
    rw [Query.CoveredAll] at h ⊢
    exact ⟨Query.Covered.mono hgrows h.1, Query.CoveredAll.mono hgrows h.2⟩

end

theorem extends_planTerm {steps : Nat} {t : Term} {u : Unit}
    (hplanned : planned place.path type place.type) (hnode : ∃ n, d.nodes[place.node]? = some n)
    (h : Ends (planTerm r steps place t) d u d') :
    Draft.Extends r planned place type d d' ∧ t.Covered r d'.nodes place := by
  rcases ends_planTerm h with ⟨v, rfl, rfl⟩ | ⟨name, joined?, rfl, hfield⟩
  · exact ⟨.refl d', trivial⟩
  · exact planField_selects hplanned hnode hfield

/-- Planning operands selects what they read. -/
theorem extends_planTerms {steps : Nat} {ts : List Term} {u : Unit}
    (hplanned : planned place.path type place.type) (hnode : ∃ n, d.nodes[place.node]? = some n)
    (h : Ends (planTerms r steps place ts) d u d') :
    Draft.Extends r planned place type d d' ∧ ∀ t ∈ ts, t.Covered r d'.nodes place := by
  unfold planTerms at h
  refine ends_forM (R := Draft.Extends r planned place type)
    (P := fun t d => t.Covered r d.nodes place) .refl .trans
    (fun hd hcovered => Term.Covered.mono hd.grows hcovered) (fun t _ d₁ d₂ hd hstep => ?_) h
  obtain ⟨n, hn⟩ := hnode
  obtain ⟨n₁, hn₁, -⟩ := hd.grows.nodes _ n hn
  exact extends_planTerm hplanned ⟨n₁, hn₁⟩ hstep

/-- A draft whose nodes have types has become another with more. -/
structure Sql.Draft.Becomes (r : TableRegistry)
    (planned : List String → String → String → Prop) (types : List (List String × String))
    (d : Draft) (types' : List (List String × String)) (d' : Draft) : Prop where
  types : types <+: types'
  typed : NodesTyped r planned d'.nodes types'
  grows : d.Grows d'

theorem Sql.Draft.Becomes.trans {types types' types'' : List (List String × String)}
    {d'' : Draft} (h : Draft.Becomes r planned types d types' d')
    (h' : Draft.Becomes r planned types' d' types'' d'') :
    Draft.Becomes r planned types d types'' d'' :=
  ⟨h.types.trans h'.types, h'.typed, h.grows.trans h'.grows⟩

/-- The number of leaf fields does not matter. -/
theorem Sql.Draft.Becomes.count {types types' : List (List String × String)}
    (h : Draft.Becomes r planned types d types' d') (count : Nat) :
    Draft.Becomes r planned types d types' { d' with fields := count } :=
  ⟨h.types, h.typed, h.grows.nodes, h.grows.columns⟩

theorem Sql.Draft.Extends.becomes {types : List (List String × String)}
    (h : Draft.Extends r planned place type d d') (htyped : NodesTyped r planned d.nodes types)
    (hplace : types[place.node]? = some (place.path, type)) :
    ∃ types', Draft.Becomes r planned types d types' d' := by
  obtain ⟨types', hextends, htyped'⟩ := h.typed types htyped hplace
  exact ⟨types', hextends, htyped', h.grows⟩

/-- Operands are covered by the draft that planning them makes, in which their node still has its
type. -/
theorem becomes_planTerms {steps : Nat} {ts : List Term} {types : List (List String × String)}
    (h : Ends (planTerms r steps place ts) d () d')
    (hplanned : planned place.path type place.type) (htyped : NodesTyped r planned d.nodes types)
    (hplace : types[place.node]? = some (place.path, type)) :
    ∃ types', Draft.Becomes r planned types d types' d' ∧
      types'[place.node]? = some (place.path, type) ∧ ∀ t ∈ ts, t.Covered r d'.nodes place := by
  obtain ⟨n, hn, -⟩ := htyped.exists_node hplace
  obtain ⟨hextends, hall⟩ := extends_planTerms hplanned ⟨n, hn⟩ h
  obtain ⟨types', hbecomes⟩ := hextends.becomes htyped hplace
  exact ⟨types', hbecomes, getElem?_of_isPrefix hbecomes.types hplace, hall⟩

mutual

theorem Query.narrows_of_forall (h : ∀ path type t, planned path type t) :
    ∀ {q : Query} {path : List String} {type : String}, q.Narrows r planned path type
  | .select .., _, _ => by
    rw [Query.Narrows]
    exact fun _ _ _ _ => Query.narrows_of_forall h
  | .filter .., _, _ | .orderBy .., _, _ | .unique _, _, _ | .limit .., _, _ => by
    rw [Query.Narrows]
    exact Query.narrows_of_forall h
  | .group _, _, _ => by
    rw [Query.Narrows]
    exact Query.narrowAll_of_forall h
  | .narrow .., _, _ => by
    rw [Query.Narrows]
    exact ⟨h _ _ _, Query.narrows_of_forall h⟩
  | .component .., _, _ | .introspect _, _, _ | .empty, _, _ => by
    rw [Query.Narrows]
    trivial

theorem Query.narrowAll_of_forall (h : ∀ path type t, planned path type t) :
    ∀ {queries : List Query} {path : List String} {type : String},
      Query.NarrowAll r planned queries path type
  | [], _, _ => by
    rw [Query.NarrowAll]
    trivial
  | _ :: _, _, _ => by
    rw [Query.NarrowAll]
    exact ⟨Query.narrows_of_forall h, Query.narrowAll_of_forall h⟩

end

/-- Planning leaves the fragments of a query as they are. -/
theorem Sql.Planning.QueryPlanned.narrows {steps : Nat} {q q' : Query} {list? : Option ListPlace}
    (h : QueryPlanned r steps place list? q d q' d') {path : List String}
    (hnarrows : q.Narrows r planned path type) : q'.Narrows r planned path type := by
  induction h generalizing path type with
  | pushed hpushable hcondition hpush hchild ih =>
    rw [Query.Narrows] at hnarrows
    exact ih hnarrows
  | filter hpushable hterms hchild ih =>
    rw [Query.Narrows] at hnarrows ⊢
    exact ih hnarrows
  | unique hchild ih =>
    rw [Query.Narrows] at hnarrows ⊢
    exact ih hnarrows
  | orderBy hterms hchild ih =>
    rw [Query.Narrows] at hnarrows ⊢
    exact ih hnarrows
  | limit hchild ih =>
    rw [Query.Narrows] at hnarrows ⊢
    exact ih hnarrows
  | groupCons hfirst hrest ih ihrest =>
    rw [Query.narrows_group_cons] at hnarrows ⊢
    exact ⟨ih hnarrows.1, ihrest hnarrows.2⟩
  | joined count hname hfield hchild ih =>
    rw [Query.Narrows] at hnarrows ⊢
    exact fun t f hplanned hf => ih (hnarrows t f hplanned hf)
  | narrow hchild ih =>
    rw [Query.Narrows] at hnarrows ⊢
    exact ⟨hnarrows.1, ih hnarrows.2⟩
  | groupNil | typename | leaf | component | empty => exact hnarrows

/-- Planning covers the query that it leaves. -/
theorem Sql.Planning.QueryPlanned.covers
    (hfields : ∀ path type t₁ t₂ name f₁ f₂, planned path type t₁ → planned path type t₂ →
      r.schema.field? t₁ name = some f₁ → r.schema.field? t₂ name = some f₂ →
        planned (path ++ [name]) f₁.type.underlying f₂.type.underlying)
    {steps : Nat} {q q' : Query} {list? : Option ListPlace}
    {types : List (List String × String)}
    (h : QueryPlanned r steps place list? q d q' d')
    (hplanned : planned place.path type place.type)
    (hnarrows : q.Narrows r planned place.path type) (htyped : NodesTyped r planned d.nodes types)
    (hplace : types[place.node]? = some (place.path, type)) :
    ∃ types', Draft.Becomes r planned types d types' d' ∧ q'.Covered r d'.nodes place := by
  induction h generalizing type types with
  | pushed hpushable hcondition hpush hchild ih =>
    rw [Query.Narrows] at hnarrows
    obtain ⟨types₁, h₁⟩ := (extends_pushCondition hpush).becomes htyped hplace
    obtain ⟨types₂, h₂, hcovered⟩ :=
      ih hplanned hnarrows h₁.typed (getElem?_of_isPrefix h₁.types hplace)
    exact ⟨types₂, h₁.trans h₂, hcovered⟩
  | filter hpushable hterms hchild ih =>
    rw [Query.Narrows] at hnarrows
    obtain ⟨types₁, h₁, hplace₁, hall⟩ := becomes_planTerms hterms hplanned htyped hplace
    obtain ⟨types₂, h₂, hcovered⟩ := ih hplanned hnarrows h₁.typed hplace₁
    rw [Query.Covered]
    exact ⟨types₂, h₁.trans h₂, fun t ht => (hall t ht).mono h₂.grows, hcovered⟩
  | unique hchild ih =>
    rw [Query.Narrows] at hnarrows
    rw [Query.Covered]
    exact ih hplanned hnarrows htyped hplace
  | orderBy hterms hchild ih =>
    rw [Query.Narrows] at hnarrows
    obtain ⟨types₁, h₁, hplace₁, hall⟩ := becomes_planTerms hterms hplanned htyped hplace
    obtain ⟨types₂, h₂, hcovered⟩ := ih hplanned hnarrows h₁.typed hplace₁
    rw [Query.Covered]
    exact ⟨types₂, h₁.trans h₂,
      fun s hs => (hall s.term (List.mem_map_of_mem hs)).mono h₂.grows, hcovered⟩
  | limit hchild ih =>
    rw [Query.Narrows] at hnarrows
    rw [Query.Covered]
    exact ih hplanned hnarrows htyped hplace
  | @groupNil _ _ d =>
    rw [Query.Covered, Query.CoveredAll]
    exact ⟨types, ⟨List.prefix_refl _, htyped, .refl d⟩, trivial⟩
  | groupCons hfirst hrest ih ihrest =>
    rw [Query.narrows_group_cons] at hnarrows
    obtain ⟨types₁, h₁, hcovered⟩ := ih hplanned hnarrows.1 htyped hplace
    obtain ⟨types₂, h₂, hcoveredRest⟩ :=
      ihrest hplanned hnarrows.2 h₁.typed (getElem?_of_isPrefix h₁.types hplace)
    rw [Query.covered_group_cons]
    exact ⟨types₂, h₁.trans h₂, hcovered.mono h₂.grows, hcoveredRest⟩
  | @typename _ _ _ _ _ d =>
    rw [Query.Covered]
    exact ⟨types, ⟨List.prefix_refl _, htyped, .refl d⟩, .inl rfl⟩
  | leaf count hname hfield =>
    obtain ⟨n, hn, -⟩ := htyped.exists_node hplace
    obtain ⟨hextends, hselected⟩ := planField_selects hplanned ⟨n, hn⟩ hfield
    obtain ⟨types', h⟩ := hextends.becomes htyped hplace
    have hleaf := (planField_planned hfield).not_joined
    rw [Query.Covered]
    exact ⟨types', h.count count, .inr ⟨hselected,
      fun own hops hmapped => absurd hmapped (hleaf own hops)⟩⟩
  | joined count hname hfield hchild ih =>
    rw [Query.Narrows] at hnarrows
    obtain ⟨n, hn, -⟩ := htyped.exists_node hplace
    obtain ⟨hextends, hselected⟩ := planField_selects hplanned ⟨n, hn⟩ hfield
    cases planField_planned hfield with
    | joined own hops f joined hmapped hf hjoins =>
      obtain ⟨n₁, hn₁, hchild₁⟩ := hjoins.child? hn
      obtain ⟨types₁, hlonger, htyped₁, t, g, ht, hg, hnode⟩ :=
        hjoins.typed htyped hplace hplanned hf
      rw [hjoins.place_eq] at ih
      obtain ⟨types₂, h₂, hcovered⟩ := ih (hfields _ _ _ _ _ _ _ ht hplanned hg hf)
        (hnarrows t g ht hg) htyped₁ hnode
      obtain ⟨n₂, hn₂, hgrown, -⟩ := h₂.grows.nodes _ n₁ hn₁
      rw [Query.Covered]
      have hbecomes : Draft.Becomes r planned types _ types₂ _ :=
        ⟨hlonger.trans h₂.types, h₂.typed, hextends.grows.trans h₂.grows⟩
      refine ⟨types₂, hbecomes.count count, .inr ⟨hselected.mono (h₂.count count).grows, ?_⟩⟩
      exact fun own hops _ => ⟨n₂, _, f, hn₂, hgrown.child? hchild₁, hf, hcovered⟩
  | narrow hchild ih =>
    rw [Query.Narrows] at hnarrows
    rw [Query.Covered]
    exact ih hnarrows.1 hnarrows.2 htyped hplace
  | component hcolumns =>
    obtain ⟨types', h⟩ := (extends_selectAllColumns hcolumns).becomes htyped hplace
    rw [Query.Covered]
    exact ⟨types', h, trivial⟩
  | @empty _ _ d =>
    rw [Query.Covered]
    exact ⟨types, ⟨List.prefix_refl _, htyped, .refl d⟩, trivial⟩

end Covers

/-- A plan covers the query that it leaves, on nodes with types. -/
theorem Sql.Plan.covers {r : TableRegistry} {planned : List String → String → String → Prop}
    (hrefl : ∀ path type, planned path type type)
    (hfields : ∀ path type t₁ t₂ name f₁ f₂, planned path type t₁ → planned path type t₂ →
      r.schema.field? t₁ name = some f₁ → r.schema.field? t₂ name = some f₂ →
        planned (path ++ [name]) f₁.type.underlying f₂.type.underlying)
    {field : String} {type : TypeRef} {child : Query} {plan : Plan}
    (h : Plan.build r field type child = .ok plan)
    (hnarrows : child.Narrows r planned [field] type.underlying) :
    ∃ types, types[0]? = some ([field], type.underlying) ∧
      NodesTyped r planned plan.nodes types ∧
      plan.residual.Covered r plan.nodes ⟨0, [field], type.underlying⟩ := by
  obtain ⟨table, n, d, d', hgained, hn, hplanned, hplan⟩ := Plan.build_planned h
  have hnone : NodesTyped r planned [] [] :=
    ⟨rfl, fun i n path type hn => by simp at hn, fun i n path type field child hn => by simp at hn⟩
  have htyped : NodesTyped r planned d.nodes [([field], type.underlying)] := by
    have happend := hnone.append hn hgained.children
    rwa [hgained.nodes]
  obtain ⟨types, hbecomes, hcovered⟩ :=
    hplanned.covers hfields (hrefl [field] type.underlying) hnarrows htyped rfl
  have hnodes : plan.nodes = d'.nodes := by rw [hplan]; rfl
  rw [hnodes]
  exact ⟨types, getElem?_of_isPrefix hbecomes.types rfl, hbecomes.typed, hcovered⟩

end MappedQuery
