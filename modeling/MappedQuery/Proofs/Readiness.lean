import MappedQuery.Proofs.Supply

/-!
# Where plans are complete

Planning resolves the fields of a query for the type that it plans a position as, reading resolves
them for the concrete type of the object that it reads and asks the discriminator of the type that
it reads the position as. `Query.Foreseen` says that the two agree, or that what reading asks for
was selected anyway; then reading the rows of a plan never misses a column or a joined field,
whatever the rows are. Where they do not agree, reading does fail.
-/
namespace MappedQuery

namespace Sql

/-- What reading a field of a type asks for was selected in planning it as another type, or is
selected anyway. -/
inductive TableNode.Foresees (n : TableNode) (r : TableRegistry) (path : List String)
    (planned type : String) : String → Prop where
  | alike {name : String}
    (hsame : r.fieldMapping? path type name = r.fieldMapping? path planned name)
    (hrequired : ∀ m, r.fieldMapping? path type name = some m →
      ∀ sibling ∈ m.required, Foresees n r path planned type sibling) :
    Foresees n r path planned type name
  | joined {name own own' : String} {hops hops' : List Hop}
    (hmapped : r.fieldMapping? path type name = some (.source (.joined own hops)))
    (hplanned : r.fieldMapping? path planned name = some (.source (.joined own' hops'))) :
    Foresees n r path planned type name
  | selected {name : String} (hselected : n.Selected r path type name)
    (hleaf : ∀ own hops, r.fieldMapping? path type name ≠ some (.source (.joined own hops))) :
    Foresees n r path planned type name

theorem TableNode.Foresees.selects {n : TableNode} {r : TableRegistry} {path : List String}
    {planned type name : String} (h : n.Foresees r path planned type name)
    (hselected : n.Selected r path planned name) : n.Selected r path type name := by
  induction h with
  | alike hsame hrequired ih =>
    cases hselected with
    | column hmapped hplace => exact .column (hsame.trans hmapped) hplace
    | joined hmapped hchild => exact .joined (hsame.trans hmapped) hchild
    | computed hmapped hsiblings =>
      refine .computed (hsame.trans hmapped) fun sibling hsibling => ?_
      exact ih _ (hsame.trans hmapped) sibling hsibling (hsiblings sibling hsibling)
    | computedAttribute hmapped hsiblings =>
      refine .computedAttribute (hsame.trans hmapped) fun sibling hsibling => ?_
      exact ih _ (hsame.trans hmapped) sibling hsibling (hsiblings sibling hsibling)
    | delegate hmapped => exact .delegate (hsame.trans hmapped)
  | joined hmapped hplanned =>
    rcases hselected.of_source hplanned with ⟨_, _, _, _, hother, -⟩ | ⟨_, _, -, hchild⟩
    · cases hother
    · exact .joined hmapped hchild
  | selected hown => exact hown

/-- An object field of the type is one of the planned type. -/
theorem TableNode.Foresees.joined_of {n : TableNode} {r : TableRegistry} {path : List String}
    {planned type name own : String} {hops : List Hop} (h : n.Foresees r path planned type name)
    (hmapped : r.fieldMapping? path type name = some (.source (.joined own hops))) :
    ∃ own' hops', r.fieldMapping? path planned name = some (.source (.joined own' hops')) := by
  cases h with
  | alike hsame => exact ⟨own, hops, hsame.symm.trans hmapped⟩
  | joined _ hplanned => exact ⟨_, _, hplanned⟩
  | selected _ hleaf => exact absurd hmapped (hleaf own hops)

end Sql

open Sql

mutual

/-- No field that a query selects at a position of a type, or below it, is delegated. -/
def Query.Undelegated (r : TableRegistry) : Query → List String → String → Prop
  | .select name _ _ child, path, type =>
    ∀ t, ReadAs r path type t → (∀ d, r.fieldMapping? path t name ≠ some (.delegate d)) ∧
      ∀ g, r.schema.field? t name = some g →
        child.Undelegated r (path ++ [name]) g.type.underlying
  | .filter _ child, path, type => child.Undelegated r path type
  | .orderBy _ child, path, type => child.Undelegated r path type
  | .unique child, path, type => child.Undelegated r path type
  | .limit _ child, path, type => child.Undelegated r path type
  | .group queries, path, type => Query.AllUndelegated r queries path type
  | .narrow t child, path, _ => child.Undelegated r path t
  | .component .., _, _ => False
  | .introspect _, _, _ => True
  | .empty, _, _ => True

def Query.AllUndelegated (r : TableRegistry) : List Query → List String → String → Prop
  | [], _, _ => True
  | q :: rest, path, type => q.Undelegated r path type ∧ Query.AllUndelegated r rest path type

end

/-- What a field asks for at a position that was planned as the type of a place and is read as
another type was selected. -/
def Query.FieldForeseen (r : TableRegistry) (nodes : List TableNode) (place : Place)
    (declared name : String) : Prop :=
  ∃ n, nodes[place.node]? = some n ∧ n.Tells r place.path declared ∧
    ∀ type, CanBe r place.path declared type → n.Foresees r place.path place.type type name

def Term.Foreseen (r : TableRegistry) (nodes : List TableNode) (place : Place)
    (declared : String) : Term → Prop
  | .path [name] => Query.FieldForeseen r nodes place declared name
  | _ => True

mutual

/-- A query without delegated fields, read as a type at a position that was planned as the type of
a place, asks for nothing but what was selected, and so do the queries below its fields. -/
def Query.Foreseen (r : TableRegistry) (nodes : List TableNode) : Query → Place → String → Prop
  | .select name _ _ child, place, declared =>
    (∃ n, nodes[place.node]? = some n ∧ n.Tells r place.path declared) ∧
      (name = "__typename" ∨ Query.FieldForeseen r nodes place declared name ∧
        ∀ type, CanBe r place.path declared type →
          (∀ d, r.fieldMapping? place.path type name ≠ some (.delegate d)) ∧
          ∀ g, r.schema.field? type name = some g →
            (∀ own column isKey hidden, r.fieldMapping? place.path type name =
              some (.source (.column own column isKey hidden)) →
                child.Undelegated r (place.path ++ [name]) g.type.underlying) ∧
            (∀ own hops n i f, r.fieldMapping? place.path type name =
              some (.source (.joined own hops)) → nodes[place.node]? = some n →
                n.child? name = some i → r.schema.field? place.type name = some f →
                  child.Foreseen r nodes ⟨i, place.path ++ [name], f.type.underlying⟩
                    g.type.underlying))
  | .filter p child, place, declared =>
    (∀ t ∈ p.terms, t.Foreseen r nodes place declared) ∧ child.Foreseen r nodes place declared
  | .orderBy selections child, place, declared =>
    (∀ s ∈ selections, s.term.Foreseen r nodes place declared) ∧
      child.Foreseen r nodes place declared
  | .unique child, place, declared => child.Foreseen r nodes place declared
  | .limit _ child, place, declared => child.Foreseen r nodes place declared
  | .group queries, place, declared => Query.AllForeseen r nodes queries place declared
  | .narrow t child, place, declared =>
    (∃ type, CanBe r place.path declared type ∧ r.schema.isSubtype type t = true) →
      child.Foreseen r nodes { place with type := t } t
  | .component .., _, _ => False
  | .introspect _, _, _ => True
  | .empty, _, _ => True

def Query.AllForeseen (r : TableRegistry) (nodes : List TableNode) :
    List Query → Place → String → Prop
  | [], _, _ => True
  | q :: rest, place, declared =>
    q.Foreseen r nodes place declared ∧ Query.AllForeseen r nodes rest place declared

end

-- The equations are derived here, once, and not by each of the proofs below at the same time.
attribute [local simp] Query.Covered Query.Undelegated Query.Foreseen

/-- A position is ready for a query: at a cell nothing can be missed, and at the rows of a node
the query is covered and foreseen. -/
inductive Cursor.Ready (r : TableRegistry) (nodes : List TableNode) (q : Query) (c : Cursor) :
    Prop where
  | cell (cell : Cell) (hfocus : c.focus = .table r (.cell cell))
    (hundelegated : q.Undelegated r c.path c.type.underlying)
  | rows (place : Place) (rows : List Row)
    (hfocus : c.focus = .table r (.rows ⟨nodes, place.node, rows⟩)) (hpath : c.path = place.path)
    (hcovered : q.Covered r nodes place)
    (hforeseen : q.Foreseen r nodes place c.type.underlying)

namespace Cursor.Ready

variable {r : TableRegistry} {nodes : List TableNode} {q child : Query} {c e : Cursor}

theorem element (h : c.Ready r nodes q) (he : e ∈ c.elements) : e.Ready r nodes q := by
  obtain ⟨path, type, focus⟩ := c
  cases h with
  | cell cell hfocus hundelegated =>
    cases hfocus
    simp only [elements] at he
    split at he
    · cases he
    · obtain rfl := List.mem_singleton.1 he
      exact .cell cell rfl (type.underlying_element.symm ▸ hundelegated)
  | rows place rows hfocus hpath hcovered hforeseen =>
    cases hfocus
    simp only [elements, RowGroup.entities, List.map_map, List.mem_map] at he
    obtain ⟨rows', -, rfl⟩ := he
    exact .rows place rows' rfl hpath hcovered (type.underlying_element.symm ▸ hforeseen)

theorem present {inner : Cursor} (h : c.Ready r nodes q)
    (hpresent : c.present? = .ok (some inner)) : inner.Ready r nodes q := by
  obtain ⟨path, type, focus⟩ := c
  cases type with
  | named name => cases hpresent
  | list item => cases hpresent
  | nullable type =>
    cases h with
    | cell cell hfocus hundelegated =>
      cases hfocus
      simp only [present?] at hpresent
      split at hpresent
      · cases hpresent
      · cases hpresent
        exact .cell cell rfl hundelegated
    | rows place rows hfocus hpath hcovered hforeseen =>
      cases hfocus
      simp only [present?] at hpresent
      split at hpresent
      · cases hpresent
      · cases hpresent
        exact .rows place _ rfl hpath hcovered hforeseen

/-- A part of a query at the same position. -/
theorem part (h : c.Ready r nodes q)
    (hundelegated : ∀ {path type}, q.Undelegated r path type → child.Undelegated r path type)
    (hcovered : ∀ {place}, q.Covered r nodes place → child.Covered r nodes place)
    (hforeseen : ∀ {place declared}, q.Foreseen r nodes place declared →
      child.Foreseen r nodes place declared) : c.Ready r nodes child := by
  cases h with
  | cell cell hfocus h => exact .cell cell hfocus (hundelegated h)
  | rows place rows hfocus hpath h h' => exact .rows place rows hfocus hpath (hcovered h) (hforeseen h')

theorem filter {p : Predicate} (h : c.Ready r nodes (.filter p child)) :
    c.Ready r nodes child := by
  refine h.part (fun h => ?_) (fun h => ?_) fun h => ?_
  · rwa [Query.Undelegated] at h
  · rw [Query.Covered] at h
    exact h.2
  · rw [Query.Foreseen] at h
    exact h.2

theorem orderBy {selections : List OrderSelection}
    (h : c.Ready r nodes (.orderBy selections child)) : c.Ready r nodes child := by
  refine h.part (fun h => ?_) (fun h => ?_) fun h => ?_
  · rwa [Query.Undelegated] at h
  · rw [Query.Covered] at h
    exact h.2
  · rw [Query.Foreseen] at h
    exact h.2

theorem unique (h : c.Ready r nodes (.unique child)) : c.Ready r nodes child := by
  refine h.part (fun h => ?_) (fun h => ?_) fun h => ?_
  · rwa [Query.Undelegated] at h
  · rwa [Query.Covered] at h
  · rwa [Query.Foreseen] at h

theorem limit {count : Nat} (h : c.Ready r nodes (.limit count child)) :
    c.Ready r nodes child := by
  refine h.part (fun h => ?_) (fun h => ?_) fun h => ?_
  · rwa [Query.Undelegated] at h
  · rwa [Query.Covered] at h
  · rwa [Query.Foreseen] at h

theorem group_cons {rest : List Query} (h : c.Ready r nodes (.group (q :: rest))) :
    c.Ready r nodes q ∧ c.Ready r nodes (.group rest) := by
  constructor
  · refine h.part (fun h => ?_) (fun h => ?_) fun h => ?_
    · rw [Query.Undelegated, Query.AllUndelegated] at h
      exact h.1
    · exact (Query.covered_group_cons.1 h).1
    · rw [Query.Foreseen, Query.AllForeseen] at h
      exact h.1
  · refine h.part (fun h => ?_) (fun h => ?_) fun h => ?_
    · rw [Query.Undelegated, Query.AllUndelegated] at h
      rw [Query.Undelegated]
      exact h.2
    · exact (Query.covered_group_cons.1 h).2
    · rw [Query.Foreseen, Query.AllForeseen] at h
      rw [Query.Foreseen]
      exact h.2

/-- A position that is narrowed to a type of its object. -/
theorem narrow {type : String} {narrowed : Cursor} (h : c.Ready r nodes (.narrow type child))
    (hnarrow : c.narrow type = .ok narrowed) : narrowed.Ready r nodes child := by
  unfold Cursor.narrow at hnarrow
  split at hnarrow
  · rename_i hnarrows
    cases hnarrow
    cases h with
    | cell cell hfocus hundelegated =>
      rw [Query.Undelegated] at hundelegated
      exact .cell cell hfocus hundelegated
    | rows place rows hfocus hpath hcovered hforeseen =>
      rw [Query.Covered] at hcovered
      rw [Query.Foreseen] at hforeseen
      refine .rows { place with type } rows hfocus hpath hcovered (hforeseen ?_)
      unfold narrowsTo at hnarrows
      split at hnarrows
      · rename_i concrete hconcrete
        have hschema : c.schema = r.schema := by rw [schema, hfocus]
        exact ⟨concrete, hpath ▸ canBe_of_concreteType hfocus hconcrete, hschema ▸ hnarrows⟩
      · cases hnarrows
  · cases hnarrow

/-- What a field of the concrete type is read from is there. -/
theorem provides {place : Place} {type name : String} {rows : List Row}
    (hpath : c.path = place.path) (hcanBe : CanBe r place.path c.type.underlying type)
    (hselected : SelectedAt r nodes place name)
    (hforeseen : Query.FieldForeseen r nodes place c.type.underlying name) :
    (Extent.rows ⟨nodes, place.node, rows⟩).Provides r c.path type name := by
  obtain ⟨n, hn, hselected⟩ := hselected
  obtain ⟨n', hn', -, hforesees⟩ := hforeseen
  cases hn.symm.trans hn'
  have hnode : RowGroup.node ⟨nodes, place.node, rows⟩ = n := by
    rw [RowGroup.node, List.getD_eq_getElem?_getD, hn]
    rfl
  change TableNode.Selected _ r c.path type name
  rw [hnode, hpath]
  exact (hforesees type hcanBe).selects hselected

/-- The discriminator that the rows of a node are asked for was selected. -/
theorem tells {place : Place} {declared : String} {rows : List Row} (hpath : c.path = place.path)
    (h : ∃ n, nodes[place.node]? = some n ∧ n.Tells r place.path declared) :
    (Extent.rows ⟨nodes, place.node, rows⟩).Tells r c.path declared := by
  obtain ⟨n, hn, htells⟩ := h
  have hnode : RowGroup.node ⟨nodes, place.node, rows⟩ = n := by
    rw [RowGroup.node, List.getD_eq_getElem?_getD, hn]
    rfl
  change TableNode.Tells _ r c.path declared
  rw [hnode, hpath]
  exact htells

end Cursor.Ready

namespace Cursor

variable {r : TableRegistry} {c : Cursor} {e : Extent} {type name : String}

/-- Computed fields ask for the siblings that they require. -/
theorem served_computed (hr : ComputesFromRequired r) (hfocus : c.focus = .table r e)
    (hconcrete : c.concreteType = .ok type) (h : e.Provides r c.path type name)
    {compute : Computation} (hresolve : r.resolve c.path type name = .computed compute) :
    Served (compute c.view) := by
  have htype : Served c.concreteType := by
    rw [hconcrete]
    exact served_ok _
  have hread : ∀ sibling, e.Provides r c.path type sibling → Served (c.attributeValue sibling) :=
    fun sibling hsibling => served_attributeWithin hr hfocus htype _ sibling
      fun concrete hother => by
        cases hconcrete.symm.trans hother
        exact hsibling
  have hcomputed : ∀ f : ComputedField, f.ReadsRequired →
      (∀ sibling ∈ f.required, e.Provides r c.path type sibling) → Served (f.compute c.view) := by
    intro f hf hrequired
    refine served_compute hf hfocus htype (fun concrete hother => ?_) fun sibling hsibling =>
      hread sibling (hrequired sibling hsibling)
    cases hconcrete.symm.trans hother
    exact hrequired
  unfold Registry.resolve at hresolve
  split at hresolve
  · cases hresolve
  · rename_i f hidden hmapped
    cases hresolve
    exact hcomputed f (hr.1 f hidden (Registry.mem_allFields_of_fieldMapping? hmapped))
      (h.required hmapped)
  · rename_i f hmapped
    cases hresolve
    exact hcomputed f (hr.2 f (Registry.mem_allFields_of_fieldMapping? hmapped))
      (h.required hmapped)
  · cases hresolve

theorem served_readThrough {read : Cursor → Except Fault Value} (h : ∀ c, Served (read c))
    (type : TypeRef) (c : Cursor) : Served (readThrough read type c) := by
  induction type generalizing c with
  | named name => exact h c
  | list item ih =>
    rw [readThrough]
    exact (served_mapM fun e _ => ih e).bind fun values _ => served_ok _
  | nullable inner ih =>
    rw [readThrough]
    refine (served_present? c).bind fun present? _ => ?_
    cases present? with
    | none => exact served_ok _
    | some present => exact ih present

/-- Following a field to its value asks for what the field is read from. -/
theorem served_follow (hr : ComputesFromRequired r) (hfocus : c.focus = .table r e)
    (htype : Served c.concreteType)
    (h : ∀ type, c.concreteType = .ok type → e.Provides r c.path type name) {rest : List String}
    (hrest : ∀ next, c.field name = .ok next → rest = []) :
    Served (c.follow (.tables r) (name :: rest)) := by
  rw [follow]
  refine htype.bind fun type hconcrete => ?_
  dsimp only
  split
  · rename_i compute hresolve
    split
    · exact served_computed hr hfocus hconcrete (h type hconcrete) hresolve
    · exact served_error.2 rfl
  · exact served_error.2 rfl
  · refine (served_field hfocus htype h).bind fun next hnext => ?_
    obtain rfl := hrest next hnext
    refine served_readThrough (fun c => ?_) _ _
    split
    · exact served_error.2 rfl
    · exact served_leaf c

theorem field_ne_ok {cell : Cell} {next : Cursor} (hfocus : c.focus = .table r (.cell cell)) :
    c.field name ≠ .ok next := by
  intro h
  obtain ⟨type, f, g, extent, -, -, -, hextent, -⟩ := field_eq_ok hfocus h
  cases f <;> cases hextent

/-- What an operand reads of a cell asks for nothing of the tables. -/
theorem served_value_cell (hr : ComputesFromRequired r) {cell : Cell}
    (hfocus : c.focus = .table r (.cell cell)) (t : Term) :
    Served (t.value (.tables r) c) := by
  cases t with
  | const v => exact served_ok v
  | path names =>
    cases names with
    | nil =>
      rw [Term.value, follow]
      exact served_leaf c
    | cons name rest =>
      exact served_follow hr hfocus (served_concreteType hfocus trivial)
        (fun _ _ => trivial) fun next hnext => absurd hnext (field_ne_ok hfocus)

/-- What an operand reads of the rows of a node was selected if it is covered and foreseen. -/
theorem served_value_rows (hr : ComputesFromRequired r) {nodes : List TableNode} {place : Place}
    {rows : List Row} (hfocus : c.focus = .table r (.rows ⟨nodes, place.node, rows⟩))
    (hpath : c.path = place.path) {t : Term} (hcovered : t.Covered r nodes place)
    (hforeseen : t.Foreseen r nodes place c.type.underlying) :
    Served (t.value (.tables r) c) := by
  match t, hcovered, hforeseen with
  | .const v, _, _ => exact served_ok v
  | .path [], hcovered, _ => exact hcovered.elim
  | .path (_ :: _ :: _), hcovered, _ => exact hcovered.elim
  | .path [name], hcovered, hforeseen =>
    have htype := served_concreteType hfocus (Ready.tells hpath (hforeseen.imp fun n hn => ⟨hn.1, hn.2.1⟩))
    refine served_follow hr hfocus htype (fun type hconcrete => ?_) fun _ _ => rfl
    exact Ready.provides hpath (hpath ▸ canBe_of_concreteType hfocus hconcrete) hcovered hforeseen

end Cursor

end MappedQuery
