import MappedQuery.Proofs.EntityGroups
import MappedQuery.Proofs.PlanCompleteness
import MappedQuery.Proofs.Readings
import MappedQuery.Proofs.RowsShown
import MappedQuery.Proofs.ShownMembers

/-!
# The entities of object positions

The fields of an object are read from the rows of its position: a column from the first of them, the
fields below from all. So a position should have the rows of one entity. The elements of a list do,
since they are the groups of rows that have one key. A position without a list has the rows it is
opened with, only those with a key if it may hold nothing, and they are not taken apart; it is one
entity exactly if these rows have one key. The rows of a field are those of its object, so it is so
wherever the rows of each entity have one key for each of its fields that is no list.
-/
namespace MappedQuery

open Sql

namespace TypeRef

/-- Whether a position of the type has no elements. -/
def isSingular : TypeRef → Bool
  | named _ => true
  | nullable inner => inner.isSingular
  | list _ => false

end TypeRef

namespace Sql.RowGroup

/-- The rows of one entity: there are some, and all have the same key. -/
def DenotesOne (g : RowGroup) : Prop :=
  g.rows ≠ [] ∧ ∃ k, ∀ row ∈ g.rows, g.key? row = some k

/-- The rows hold one entity, or none if the type allows it. -/
def HoldsOne (g : RowGroup) : TypeRef → Prop
  | .nullable _ => ∃ k, ∀ row ∈ g.rows, ∀ k', g.key? row = some k' → k' = k
  | _ => g.DenotesOne

theorem denotesOne_of_mem_entities {g entity : RowGroup} (h : entity ∈ g.entities) :
    entity.DenotesOne := by
  rw [entities_eq] at h
  obtain ⟨k, hk, rfl⟩ := List.mem_map.1 h
  obtain ⟨row, hrow, hkey⟩ := List.mem_filterMap.1 (mem_firstSeen.1 hk)
  refine ⟨List.ne_nil_of_mem (List.mem_filter.2 ⟨hrow, decide_eq_true hkey⟩), k, fun row hrow => ?_⟩
  exact of_decide_eq_true (List.mem_filter.1 hrow).2

theorem mem_present {g : RowGroup} {row : Row} :
    row ∈ g.present.rows ↔ row ∈ g.rows ∧ ∃ k, g.key? row = some k := by
  rw [present, List.mem_filter, Option.isSome_iff_exists]

/-- The rows of one entity all hold it. -/
theorem DenotesOne.present {g : RowGroup} (h : g.DenotesOne) : g.present.DenotesOne := by
  obtain ⟨hne, k, hk⟩ := h
  obtain ⟨row, hrow⟩ := List.exists_mem_of_ne_nil _ hne
  exact ⟨List.ne_nil_of_mem (mem_present.2 ⟨hrow, k, hk row hrow⟩), k,
    fun row hrow => hk row (mem_present.1 hrow).1⟩

theorem DenotesOne.holdsOne {g : RowGroup} (h : g.DenotesOne) (type : TypeRef) :
    g.HoldsOne type := by
  cases type with
  | nullable inner =>
    obtain ⟨-, k, hk⟩ := h
    exact ⟨k, fun row hrow k' hk' => Option.some.inj (hk'.symm.trans (hk row hrow))⟩
  | named _ | list _ => exact h

/-- Rows that hold an entity hold one exactly if all rows hold at most one. -/
theorem holdsOne_present {g : RowGroup} (hne : g.present.rows ≠ []) {inner : TypeRef}
    (hinner : inner.isSingular = true) :
    g.present.HoldsOne inner ↔ g.HoldsOne (.nullable inner) := by
  have hrows (k : List Cell) : (∀ row ∈ g.present.rows, ∀ k', g.key? row = some k' → k' = k) ↔
      ∀ row ∈ g.rows, ∀ k', g.key? row = some k' → k' = k :=
    ⟨fun h row hrow k' hk' => h row (mem_present.2 ⟨hrow, k', hk'⟩) k' hk',
      fun h row hrow => h row (mem_present.1 hrow).1⟩
  cases inner with
  | list item => cases hinner
  | nullable inner => exact exists_congr hrows
  | named name =>
    refine Iff.trans ⟨fun ⟨_, k, hk⟩ => ⟨k, fun row hrow k' hk' => ?_⟩,
      fun ⟨k, hk⟩ => ⟨hne, k, fun row hrow => ?_⟩⟩ (exists_congr hrows)
    · exact Option.some.inj (hk'.symm.trans (hk row hrow))
    · obtain ⟨-, k', hk'⟩ := mem_present.1 hrow
      exact hk'.trans (congrArg some (hk row hrow k' hk'))

end Sql.RowGroup

namespace Cursor

/-- The position is one entity, if it looks at rows. -/
def DenotesOne (c : Cursor) : Prop :=
  ∀ r g, c.focus = .table r (.rows g) → g.DenotesOne

/-- The position holds one entity, or none if its type allows it, if it looks at rows. -/
def HoldsOne (c : Cursor) : Prop :=
  ∀ r g, c.focus = .table r (.rows g) → g.HoldsOne c.type

theorem holdsOne_iff {c : Cursor} {r : TableRegistry} {g : RowGroup}
    (h : c.focus = .table r (.rows g)) : c.HoldsOne ↔ g.HoldsOne c.type := by
  refine ⟨fun hc => hc r g h, fun hg r' g' h' => ?_⟩
  cases h.symm.trans h'
  exact hg

theorem denotesOne_of_mem_elements {c e : Cursor} (h : e ∈ c.elements) : e.DenotesOne := by
  intro r g hfocus
  obtain ⟨g', -, hentity⟩ := (mem_elements h).2.2 r g hfocus
  exact RowGroup.denotesOne_of_mem_entities hentity

/-- What is read of an entity is an entity. -/
theorem ObjectAt.denotesOne {c o : Cursor} (h : c.ObjectAt o) (hc : c.DenotesOne) :
    o.DenotesOne := by
  induction h with
  | object => exact hc
  | present hpresent _ ih =>
    obtain ⟨-, -, ⟨hsame, -⟩ | ⟨r, g, hfocus, -, hpart⟩⟩ := present?_eq_some hpresent
    · exact ih fun r g hfocus => hc r g (hsame ▸ hfocus)
    · refine ih fun r' g' hfocus' => ?_
      cases hpart.symm.trans hfocus'
      exact (hc r g hfocus).present
  | element _ he _ ih => exact ih (denotesOne_of_mem_elements he)

/-- An object at a position is one entity, unless there is no list around it and the rows of the
position are not those of one. -/
theorem ObjectAt.denotesOne_iff {c o : Cursor} (h : c.ObjectAt o) :
    o.DenotesOne ↔ (c.type.isSingular = true → c.HoldsOne) := by
  induction h with
  | @object c name htype hleaf =>
    have hholds : c.HoldsOne ↔ c.DenotesOne := by
      rw [HoldsOne, htype]
      exact Iff.rfl
    rw [htype, hholds]
    exact ⟨fun h _ => h, fun h => h rfl⟩
  | @present c p o hpresent _ ih =>
    obtain ⟨htype, -, hfocus⟩ := present?_eq_some hpresent
    rw [ih, htype]
    refine imp_congr_right fun hsingular => ?_
    rcases hfocus with ⟨hsame, hnone⟩ | ⟨r, g, hrows, hne, hpart⟩
    · exact ⟨fun _ r g h => absurd h (hnone r g), fun _ r g h => absurd (hsame ▸ h) (hnone r g)⟩
    · rw [holdsOne_iff hrows, holdsOne_iff hpart, htype]
      exact RowGroup.holdsOne_present hne hsingular
  | @element c e o item htype he ho _ =>
    refine ⟨fun _ hsingular => ?_, fun _ => ho.denotesOne (denotesOne_of_mem_elements he)⟩
    rw [htype] at hsingular
    cases hsingular

end Cursor

/-- The rows of a field are those of its object, seen as entities of another table. -/
theorem field_rows {c next : Cursor} {name : String} (h : c.field name = .ok next)
    {r : TableRegistry} {g : RowGroup} (hfocus : next.focus = .table r (.rows g)) :
    ∃ g' child type f, c.focus = .table r (.rows g') ∧ g'.node.child? name = some child ∧
      g = g'.seenAs child ∧ r.schema.field? type name = some f ∧ next.type = f.type := by
  cases hc : c.focus with
  | document d json =>
    unfold Cursor.field at h
    rw [hc] at h
    obtain ⟨⟨owner, source⟩, -, h⟩ := bind_eq_ok.1 h
    obtain ⟨type, -, h⟩ := bind_eq_ok.1 h
    obtain rfl := pure_eq_ok.1 h
    cases hfocus
  | table r' e =>
    obtain ⟨type, source, f, extent, -, -, hf, hextent, rfl⟩ := Cursor.field_eq_ok hc h
    cases hfocus
    unfold Cursor.fieldExtent at hextent
    split at hextent
    · obtain ⟨cell, -, hcell⟩ := bind_eq_ok.1 hextent
      cases hcell
    · split at hextent
      · rename_i g'
        split at hextent
        · rename_i child hchild
          cases hextent
          exact ⟨g', child, type, f, rfl, hchild, rfl, hf, rfl⟩
        · cases hextent
      · cases hextent
    · cases hextent

namespace Query

section Objects

variable {m : Mapping} {q : Query} {c o : Cursor}

theorem ReadsObject.denotesOne_iff (h : q.ReadsObject m c o) :
    o.DenotesOne ↔ (q.isListOperation = false → c.type.isSingular = true → c.HoldsOne) := by
  cases h with
  | position hplain ho =>
    rw [ho.denotesOne_iff]
    exact ⟨fun h _ => h, fun h => h hplain⟩
  | refined hlist hrefined _ he ho =>
    refine ⟨fun _ hplain => ?_, fun _ => ho.denotesOne (Cursor.denotesOne_of_mem_elements
      (subset_of_refine hrefined he))⟩
    rw [hlist] at hplain
    cases hplain

mutual

/-- The selections of an object see the data that the object is read from. -/
theorem selections_focus : ∀ {q : Query} {c seen : Cursor} {s : Query},
    (s, seen) ∈ q.selections c → seen.focus = c.focus
  | .group queries, _, _, _, h => selectionsAll_focus h
  | .narrow type child, c, _, _, h => by
    rw [selections] at h
    split at h
    · exact selections_focus (q := child) (c := { c with type := .named type }) h
    · cases h
  | .select .., _, _, _, h | .component .., _, _, _, h => by
    cases List.mem_singleton.1 h
    rfl
  | .filter _ child, _, _, _, h => selections_focus (q := child) h
  | .unique child, _, _, _, h => selections_focus (q := child) h
  | .limit _ child, _, _, _, h => selections_focus (q := child) h
  | .orderBy _ child, _, _, _, h => selections_focus (q := child) h
  | .introspect _, _, _, _, h | .empty, _, _, _, h => by cases h

theorem selectionsAll_focus : ∀ {queries : List Query} {c seen : Cursor} {s : Query},
    (s, seen) ∈ selectionsAll queries c → seen.focus = c.focus
  | [], _, _, _, h => by cases h
  | q :: rest, _, _, _, h => by
    rcases List.mem_append.1 h with h | h
    · exact selections_focus (q := q) h
    · exact selectionsAll_focus h

end

/-- A selection leads from an object that is read at a position to a field that the data have. -/
inductive LeadsTo (m : Mapping) (q : Query) (c : Cursor) : Cursor → Query → Cursor → Prop
  | field {o seen next : Cursor} {name type : String} {alias? : Option String}
    {bindings : List Binding} {child : Query} (hobject : q.ReadsObject m c o)
    (hselected : (.select name alias? bindings child, seen) ∈ q.selections o)
    (hname : name ≠ "__typename") (htype : seen.concreteType = .ok type)
    (hresolve : m.resolve seen.path type name = .source) (hnext : seen.field name = .ok next) :
    LeadsTo m q c o child next

/-- The positions that are opened when a query is read at a position, each with what is read at
it. -/
inductive Opens (m : Mapping) (q : Query) (c : Cursor) : Query → Cursor → Prop
  | root : Opens m q c q c
  | field {q' child : Query} {p o next : Cursor} (h : Opens m q c q' p)
    (hleads : q'.LeadsTo m p o child next) : Opens m q c child next

end Objects

end Query

namespace Sql

/-- The rows that have one key of a table hold one entity of each object below it that is no list,
or none if it may be missing. -/
def Settled (schema : Schema) (tables : List TableNode) (rows : List Row) : Prop :=
  ∀ (n : TableNode) (child : Nat) (type name : String) (f : FieldDefinition) (k : List Cell),
    n ∈ tables → n.child? name = some child → schema.field? type name = some f →
      f.type.isSingular = true → (∃ row ∈ rows, RowGroup.keyAt? n row = some k) →
        RowGroup.HoldsOne ⟨tables, child, rows.filter fun row => RowGroup.keyAt? n row = some k⟩
          f.type

theorem RowGroup.node_mem_of_child? {g : RowGroup} {name : String} {child : Nat}
    (h : g.node.child? name = some child) : g.node ∈ g.tables := by
  rw [node, List.getD_eq_getElem?_getD] at h ⊢
  cases hn : g.tables[g.index]? with
  | none =>
    rw [hn] at h
    cases h
  | some n => exact List.mem_of_getElem? hn

theorem RowGroup.HoldsOne.mono {tables : List TableNode} {index : Nat} {rows part : List Row}
    {type : TypeRef} (h : RowGroup.HoldsOne ⟨tables, index, rows⟩ type) (hpart : part ⊆ rows)
    (hne : part ≠ []) : RowGroup.HoldsOne ⟨tables, index, part⟩ type := by
  cases type with
  | nullable inner =>
    obtain ⟨k, hk⟩ := h
    exact ⟨k, fun row hrow => hk row (hpart hrow)⟩
  | named _ | list _ =>
    obtain ⟨-, k, hk⟩ := h
    exact ⟨hne, k, fun row hrow => hk row (hpart hrow)⟩

end Sql

namespace Cursor

/-- A position looks at rows of a statement. -/
def Within (c : Cursor) (s : Schema) (tables : List TableNode) (rows : List Row) : Prop :=
  ∀ r g, c.focus = .table r (.rows g) → r.schema = s ∧ g.tables = tables ∧ g.rows ⊆ rows

variable {s : Schema} {tables : List TableNode} {rows : List Row}

theorem Within.element {c e : Cursor} (h : c.Within s tables rows) (he : e ∈ c.elements) :
    e.Within s tables rows := by
  intro r g hfocus
  obtain ⟨g', hfocus', hentity⟩ := (mem_elements he).2.2 r g hfocus
  obtain ⟨hschema, htables, hrows⟩ := h r g' hfocus'
  rw [RowGroup.entities_eq] at hentity
  obtain ⟨k, -, rfl⟩ := List.mem_map.1 hentity
  exact ⟨hschema, htables, List.Subset.trans (List.filter_subset_self _) hrows⟩

theorem Within.objectAt {c o : Cursor} (h : c.Within s tables rows) (ho : c.ObjectAt o) :
    o.Within s tables rows := by
  induction ho with
  | object => exact h
  | present hpresent _ ih =>
    refine ih fun r g hfocus => ?_
    obtain ⟨-, -, ⟨hsame, -⟩ | ⟨r', g', hfocus', -, hpart⟩⟩ := present?_eq_some hpresent
    · exact h r g (hsame ▸ hfocus)
    · cases hpart.symm.trans hfocus
      obtain ⟨hschema, htables, hrows⟩ := h r g' hfocus'
      exact ⟨hschema, htables, List.Subset.trans (List.filter_subset_self _) hrows⟩
  | element _ he _ ih => exact ih (h.element he)

theorem Within.readsObject {m : Mapping} {q : Query} {c o : Cursor} (h : c.Within s tables rows)
    (ho : q.ReadsObject m c o) : o.Within s tables rows := by
  cases ho with
  | position _ ho => exact h.objectAt ho
  | refined _ hrefined _ he ho => exact (h.element (Query.subset_of_refine hrefined he)).objectAt ho

/-- A field of one entity holds one entity, where rows are settled. -/
theorem holdsOne_of_leadsTo {m : Mapping} {q child : Query} {c o next : Cursor}
    (hsettled : Settled s tables rows) (hc : c.Within s tables rows)
    (hone : o.DenotesOne) (hleads : q.LeadsTo m c o child next) :
    next.Within s tables rows ∧ (next.type.isSingular = true → next.HoldsOne) := by
  obtain ⟨hobject, hselected, -, -, -, hnext⟩ := hleads
  have hwithin := hc.readsObject hobject
  have hseen := Query.selections_focus hselected
  refine ⟨fun r g hfocus => ?_, fun hsingular r g hfocus => ?_⟩
  · obtain ⟨g', i, type, f, hfocus', -, rfl, -⟩ := field_rows hnext hfocus
    exact hwithin r g' (hseen ▸ hfocus')
  · obtain ⟨g', i, type, f, hfocus', hchild, rfl, hf, htype⟩ := field_rows hnext hfocus
    rw [hseen] at hfocus'
    obtain ⟨rfl, rfl, hrows⟩ := hwithin r g' hfocus'
    obtain ⟨hne, k, hk⟩ := hone r g' hfocus'
    obtain ⟨row, hrow⟩ := List.exists_mem_of_ne_nil _ hne
    rw [htype] at hsingular ⊢
    exact (hsettled g'.node i type _ f k (RowGroup.node_mem_of_child? hchild) hchild hf hsingular
      ⟨row, hrows hrow, hk row hrow⟩).mono
        (fun row hrow => List.mem_filter.2 ⟨hrows hrow, decide_eq_true (hk row hrow)⟩) hne

end Cursor

/-- Where rows are settled, every position that is opened holds one entity if it has no
elements. -/
theorem Query.Opens.holdsOne {m : Mapping} {q q' : Query} {c p : Cursor} {s : Schema}
    {tables : List TableNode} {rows : List Row} (hsettled : Settled s tables rows)
    (hc : c.Within s tables rows)
    (hroot : q.isListOperation = false → c.type.isSingular = true → c.HoldsOne)
    (h : q.Opens m c q' p) : p.Within s tables rows ∧
      (q'.isListOperation = false → p.type.isSingular = true → p.HoldsOne) := by
  induction h with
  | root => exact ⟨hc, hroot⟩
  | field _ hleads ih =>
    obtain ⟨hwithin, hholds⟩ := ih
    obtain ⟨hobject⟩ := id hleads
    have hone := hobject.denotesOne_iff.2 hholds
    obtain ⟨hnext, hsingular⟩ := Cursor.holdsOne_of_leadsTo hsettled hwithin hone hleads
    exact ⟨hnext, fun _ => hsingular⟩

/-- An element of a position, which filters and orderings decide on, is one entity of the rows of a
plan. An object that is read is one, unless its position has no elements and the rows that the
position was opened with are not those of one. So it always is where the root, if it is no list, has
the rows of one entity, and the rows of each entity have one entity of every object below it that is
no list. -/
theorem Sql.Plan.object_denotes_one (r : TableRegistry) (plan : Plan) (field : String)
    (type : TypeRef) (rows : List Row) :
    let root : Cursor := ⟨[field], type, .table r (.rows ⟨plan.nodes, 0, rows⟩)⟩
    (∀ q p e, plan.residual.Opens (.tables r) root q p → e ∈ p.elements → e.DenotesOne) ∧
    (∀ q p o, plan.residual.Opens (.tables r) root q p → q.ReadsObject (.tables r) p o →
      (o.DenotesOne ↔
        (q.isListOperation = false → p.type.isSingular = true → p.HoldsOne))) ∧
    ((plan.residual.isListOperation = false → type.isSingular = true → root.HoldsOne) →
      Settled r.schema plan.nodes rows →
        ∀ q p o, plan.residual.Opens (.tables r) root q p → q.ReadsObject (.tables r) p o →
          o.DenotesOne) := by
  intro root
  refine ⟨fun q p e _ he => Cursor.denotesOne_of_mem_elements he,
    fun q p o _ ho => ho.denotesOne_iff, fun hroot hsettled q p o hopens ho => ?_⟩
  have hwithin : root.Within r.schema plan.nodes rows := by
    rintro _ _ ⟨⟩
    exact ⟨rfl, rfl, List.Subset.refl rows⟩
  exact ho.denotesOne_iff.2 (hopens.holdsOne hsettled hwithin hroot).2

namespace Pets

/-- The names of the owners of pets. -/
def owners : Query := .select "owner" none [] (.field "name")

/-- The statement joins the owners to the pets by the table that says who owns which. -/
def ownersPlan : Plan where
  statement := {
    columns := [.column ⟨some ⟨"t0", none⟩, "id"⟩, .column ⟨some ⟨"t2", none⟩, "id"⟩,
      .column ⟨some ⟨"t2", none⟩, "name"⟩]
    table? := some ⟨"pet", some "t0"⟩
    joins := [
      ⟨⟨"ownership", some "t1"⟩, .single (.compare .equal (.column ⟨some ⟨"t0", none⟩, "id"⟩)
        (.column ⟨some ⟨"t1", none⟩, "pet"⟩))⟩,
      ⟨⟨"person", some "t2"⟩, .single (.compare .equal (.column ⟨some ⟨"t1", none⟩, "person"⟩)
        (.column ⟨some ⟨"t2", none⟩, "id"⟩))⟩]
    condition? := none
    order := [.column ⟨some ⟨"t0", none⟩, "id"⟩, .column ⟨some ⟨"t2", none⟩, "id"⟩] }
  nodes := [⟨"t0", "pet", [0], [("id", 0)], [("owner", 1)], false⟩,
    ⟨"t2", "person", [1], [("id", 1), ("name", 2)], [], false⟩]
  residual := owners
  fields := 1

/-- Pets, read from rows of the statement. -/
def petsOf (rows : List Row) : Cursor :=
  ⟨["pets"], .list (.named "Pet"), .table registry (.rows ⟨ownersPlan.nodes, 0, rows⟩)⟩

/-- An owner, read from rows of the statement. -/
def ownerOf (rows : List Row) : Cursor :=
  ⟨["pets", "owner"], .named "Person", .table registry (.rows ⟨ownersPlan.nodes, 1, rows⟩)⟩

/-- The owner of a pet that is read. -/
theorem opens_owner {rows part : List Row} {pet : Cursor} (hpet : pet ∈ (petsOf rows).elements)
    (hobject : pet.type = .named "Pet" ∧ pet.isLeaf = false)
    (htype : pet.concreteType = .ok "Pet")
    (hresolve : Mapping.resolve pet.path "Pet" "owner" (.tables registry) = .source)
    (howner : pet.field "owner" = .ok (ownerOf part)) :
    owners.Opens (.tables registry) (petsOf rows) (.field "name") (ownerOf part) ∧
      (Query.field "name").ReadsObject (.tables registry) (ownerOf part) (ownerOf part) := by
  have hread : owners.ReadsObject (.tables registry) (petsOf rows) pet :=
    .position rfl (.element rfl hpet (.object hobject.1 hobject.2))
  have hleads : owners.LeadsTo (.tables registry) (petsOf rows) pet (.field "name")
      (ownerOf part) :=
    .field hread (List.mem_singleton_self _) (by decide) htype hresolve howner
  exact ⟨.field .root hleads, .position rfl (.object rfl rfl)⟩

/-- Both pets are Ann's. -/
def whole : List Row :=
  [[.integer 1, .integer 1, .text "Ann"], [.integer 2, .integer 1, .text "Ann"]]

/-- A way to an owner that breaks off, beside the one to Ann. -/
def broken : List Row :=
  [[.integer 1, .null, .null], [.integer 1, .integer 1, .text "Ann"]]

theorem settled_whole : Settled registry.schema ownersPlan.nodes whole := by
  rintro n child type name f k hn hchild - - ⟨row, hrow, hkey⟩
  have hann : ∀ row ∈ whole,
      RowGroup.key? ⟨ownersPlan.nodes, 1, whole⟩ row = some [.integer 1] := by
    simp only [whole, List.forall_mem_cons]
    exact ⟨rfl, rfl, List.forall_mem_nil _⟩
  obtain rfl : child = 1 := by
    simp only [ownersPlan, List.mem_cons, List.not_mem_nil, or_false] at hn
    rcases hn with rfl | rfl <;> grind [TableNode.child?]
  refine RowGroup.DenotesOne.holdsOne ⟨?_, [.integer 1], fun row hrow => ?_⟩ f.type
  · exact List.ne_nil_of_mem (List.mem_filter.2 ⟨hrow, decide_eq_true hkey⟩)
  · exact hann row (List.mem_filter.1 hrow).1

/-- Pets and owners are one entity each where all ways lead to Ann, and the owner of a pet is none
where one of them breaks off. -/
theorem owners_denote_one :
    Plan.build registry "pets" (.list (.named "Pet")) owners = .ok ownersPlan ∧
      Settled registry.schema ownersPlan.nodes whole ∧
      (∀ q p o, owners.Opens (.tables registry) (petsOf whole) q p →
        q.ReadsObject (.tables registry) p o → o.DenotesOne) ∧
      owners.Opens (.tables registry) (petsOf broken) (.field "name") (ownerOf broken) ∧
      (Query.field "name").ReadsObject (.tables registry) (ownerOf broken) (ownerOf broken) ∧
      ¬ (ownerOf broken).DenotesOne := by
  have hpet : ⟨["pets"], .named "Pet", .table registry (.rows ⟨ownersPlan.nodes, 0, broken⟩)⟩ ∈
      (petsOf broken).elements := List.mem_singleton_self _
  obtain ⟨hopens, hreads⟩ := opens_owner hpet ⟨rfl, rfl⟩ rfl rfl
    (rfl : Cursor.field _ "owner" = .ok (ownerOf broken))
  refine ⟨rfl, settled_whole, ?_, hopens, hreads, fun hone => ?_⟩
  · exact (Plan.object_denotes_one registry ownersPlan "pets" (.list (.named "Pet")) whole).2.2
      (fun _ hsingular => by cases hsingular) settled_whole
  · have hholds := ((Plan.object_denotes_one registry ownersPlan "pets" (.list (.named "Pet"))
      broken).2.1 _ _ _ hopens hreads).1 hone rfl rfl
    obtain ⟨-, k, hk⟩ := hholds registry _ rfl
    cases hk _ List.mem_cons_self

end Pets

end MappedQuery
