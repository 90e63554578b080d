import MappedQuery.Proofs.HeldRows
import MappedQuery.Proofs.Supply

/-!
# Reading shows the rows of the tables

For a mapping of object types with columns and object fields, what is read of the statement of a
plan is what the tables hold. The elements at the root are the rows of its table that satisfy the
filters, each once and in ascending order of their keys. A column of an entity is that of its
row; a list below it has the rows that are reached through the hops of its field and satisfy the
filters of the field; a nullable object is the one such row. An object that is not nullable is
not asked whether it is there, so it is read from its first row: if the way through the hops also
breaks off at some intermediate row, that is a row of nulls, and the columns of the object read
null. `Query.Shows` says all this of a position, which is `whole` where no such way breaks off.
-/
namespace MappedQuery

open Sql Sql.Planning

/-- Cursors show the related rows of a table: each row once, in ascending order of the keys. -/
def Sql.ListsRows (key : TableRow → List Cell) (related : TableRow → Prop)
    (shows : TableRow → Cursor → Prop) (elements : List Cursor) : Prop :=
  ∃ rows : List TableRow, (∀ b, b ∈ rows ↔ related b) ∧
    rows.Pairwise (fun a b => KeyBefore (key a) (key b)) ∧ List.Forall₂ shows rows elements

namespace Cursor

/-- A nullable list is null if it has no elements, and else has the same elements as a list. -/
def PresentAsList (c : Cursor) : Prop :=
  (c.elements = [] → c.present? = .ok none) ∧
    (c.elements ≠ [] → ∃ inner, c.present? = .ok (some inner) ∧ inner.elements = c.elements)

/-- The position of an object field shows the related rows, whether it is a list, an object that
may be null, or an object that is always there, which shows a row whole if no way to it breaks
off. -/
def ShowsRelated (c : Cursor) (key : TableRow → List Cell) (related : TableRow → Prop)
    (unbroken : Prop) (shows : TableRow → Prop → Cursor → Prop) : Prop :=
  if c.isList then
    ListsRows key related (fun b element => shows b True element) c.elements ∧
      (c.isNullable = true → c.PresentAsList)
  else if c.isNullable then
    (∀ b, related b → ∃ inner, c.present? = .ok (some inner) ∧ shows b True inner) ∧
      ((∀ b, ¬ related b) → c.present? = .ok none)
  else
    (∀ b, related b → shows b unbroken c) ∧ ((∀ b, ¬ related b) → shows .absent True c)

end Cursor

section Shows

variable (r : TableRegistry) (rules : TextRules) (tables : Tables)

mutual

/-- A position shows a row to a plain query: columns read the cells of the row, or nulls where the
position is not whole, and the positions of object fields show the rows that are related to it. -/
def Query.Shows : Query → List String → String → TableRow → Prop → Cursor → Prop
  | .select name _ _ child, path, type, row, whole, c =>
    name = "__typename" ∧ c.concreteType = .ok type ∨
      (∃ own column isKey hidden,
        r.fieldMapping? path type name = some (.source (.column own column isKey hidden)) ∧
          (hidden = false → ∀ f, r.schema.field? type name = some f → ∃ cell,
            c.field name = .ok ⟨path ++ [name], f.type, .table r (.cell cell)⟩ ∧
              (whole → cell = row column.column) ∧ (¬ whole → cell = .null))) ∨
      ∃ own hops f group,
        r.fieldMapping? path type name = some (.source (.joined own hops)) ∧
          r.schema.field? type name = some f ∧
          c.field name = .ok ⟨path ++ [name], f.type, .table r (.rows group)⟩ ∧
          (⟨path ++ [name], f.type, .table r (.rows group)⟩ : Cursor).ShowsRelated
            (rowKey r (path ++ [name]) f.type.underlying)
            (fun b => Reaches tables hops row b ∧
              Satisfies r (path ++ [name]) f.type.underlying rules child.filters b)
            (whole ∧ ¬ BreaksOff tables
              (Satisfies r (path ++ [name]) f.type.underlying rules child.filters) hops row)
            fun b whole next =>
              child.Shows (path ++ [name]) f.type.underlying b whole next
  | .filter _ child, path, type, row, whole, c => child.Shows path type row whole c
  | .group queries, path, type, row, whole, c => Query.AllShow queries path type row whole c
  | .empty, _, _, _, _, _ => True
  | _, _, _, _, _, _ => False

def Query.AllShow : List Query → List String → String → TableRow → Prop → Cursor → Prop
  | [], _, _, _, _, _ => True
  | q :: rest, path, type, row, whole, c =>
    q.Shows path type row whole c ∧ Query.AllShow rest path type row whole c

end

end Shows

namespace Sql.RowGroup

/-- What is there has the same entities. -/
theorem entities_present (g : RowGroup) : g.present.entities = g.entities := by
  have hkeys : (g.rows.filter fun row => (g.key? row).isSome).filterMap g.key? =
      g.rows.filterMap g.key? := by
    rw [List.filterMap_filter]
    congr 1
    funext row
    cases g.key? row <;> simp
  rw [entities_eq, entities_eq]
  change (firstSeen ((g.rows.filter fun row => (g.key? row).isSome).filterMap g.key?)).map _ = _
  rw [hkeys]
  refine List.map_congr_left fun k _ => ?_
  have hrows : (g.rows.filter fun row => (g.key? row).isSome).filter
      (fun row => decide (g.key? row = some k)) =
        g.rows.filter fun row => decide (g.key? row = some k) := by
    rw [List.filter_filter]
    refine List.filter_congr fun row _ => ?_
    cases g.key? row <;> simp
  change RowGroup.mk _ _ _ = RowGroup.mk _ _ _
  exact congrArg (RowGroup.mk g.tables g.index) hrows

theorem entities_eq_nil_iff (g : RowGroup) : g.entities = [] ↔ g.present.rows = [] := by
  rw [entities_eq, List.map_eq_nil_iff, List.eq_nil_iff_forall_not_mem]
  simp only [mem_firstSeen, List.mem_filterMap, present, List.filter_eq_nil_iff]
  constructor
  · intro h row hrow hsome
    obtain ⟨k, hk⟩ := Option.isSome_iff_exists.1 hsome
    exact h k ⟨row, hrow, hk⟩
  · rintro h k ⟨row, hrow, hk⟩
    exact h row hrow (hk ▸ rfl)

end Sql.RowGroup

namespace Cursor

variable {r : TableRegistry} {path : List String} {group : RowGroup}

theorem presentAsList (item : TypeRef) :
    (⟨path, .nullable (.list item), .table r (.rows group)⟩ : Cursor).PresentAsList := by
  constructor
  · intro hnil
    have hentities : group.entities = [] := List.map_eq_nil_iff.1 hnil
    have hrows := (RowGroup.entities_eq_nil_iff group).1 hentities
    simp [present?, hrows]
  · intro hne
    have hrows : group.present.rows ≠ [] := fun hnil =>
      hne (List.map_eq_nil_iff.2 ((RowGroup.entities_eq_nil_iff group).2 hnil))
    refine ⟨⟨path, .list item, .table r (.rows group.present)⟩, ?_, ?_⟩
    · simp [present?, hrows]
    · simp only [elements, RowGroup.entities_present]
      rfl

/-- A column that is selected is read from the first row. -/
theorem field_of_column {type : TypeRef} {concrete name own : String} {column : ColumnRef}
    {isKey : Bool} {f : FieldDefinition} {place : Nat}
    (hname : group.node.column? column.column = some place)
    (hconcrete : (Cursor.mk path type (.table r (.rows group))).concreteType = .ok concrete)
    (hsource : r.sourceField? path concrete name = some (.column own column isKey false))
    (hfield : r.schema.field? concrete name = some f) :
    (Cursor.mk path type (.table r (.rows group))).field name =
      .ok (Cursor.mk (path ++ [name]) f.type (.table r (.cell (group.firstCell place)))) := by
  simp [field, sourceField, hconcrete, hsource, SourceField.hidden, TableField.hidden, fieldType,
    schema, hfield, fieldExtent, columnCell, hname, bind, Except.bind, pure, Except.pure]

end Cursor

section Reading

variable {r : TableRegistry} {rules : TextRules} {tables : Tables} {d : Draft}
  {types : List (List String × String)} {P : List TableRow → Prop} {wanted : TableRow → Prop}

/-- The position of a child that is joined along hops shows the rows that these reach from the row
of a group, if the groups of the child show the rows that they hold. -/
theorem Sql.Draft.Linked.showsRelated {j m k : Nat} {n : TableNode} {path : List String}
    {type : String} {hops : List Hop} {keep : TableRow → Prop} {a : TableRow} {whole : Prop}
    {declared : TypeRef} {shows : TableRow → Prop → Cursor → Prop}
    (hl : Draft.Linked rules tables d r j n path type hops m k keep)
    (h : Draft.Holds rules tables d m P a whole)
    (honly : declared.isList = false →
      ∀ b c, Reaches tables hops a b → Reaches tables hops a c → b = c)
    (hshows : ∀ (Q : List TableRow → Prop) (b : TableRow) (whole : Prop) (t : TypeRef),
      Draft.Holds rules tables d (k + hops.length - 1) Q b whole →
        (b ∈ entityRows r path type tables ∨ b = .absent) → t.underlying = declared.underlying →
          shows b whole ⟨path, t, .table r (.rows (d.groupWith rules tables j Q))⟩) :
    (⟨path, declared, .table r (.rows (d.groupWith rules tables j P))⟩ : Cursor).ShowsRelated
      (rowKey r path type) (fun b => Reaches tables hops a b ∧ keep b)
        (whole ∧ ¬ BreaksOff tables keep hops a) shows := by
  unfold Cursor.ShowsRelated
  split
  · rename_i hlist
    constructor
    · obtain ⟨bs, hmem, hsorted, hentities⟩ := hl.entities_eq h
      refine ⟨bs, hmem, hsorted, ?_⟩
      simp only [Cursor.elements, hentities, List.map_map]
      rw [List.forall₂_map_right_iff, List.forall₂_same]
      intro b hb
      obtain ⟨hreaches, hkeep⟩ := (hmem b).1 hb
      exact hshows _ b True _ (hl.holds_row h hreaches hkeep) (.inl (hl.mem_of_reaches hreaches))
        declared.underlying_element
    · intro hnullable
      rcases declared with _ | _ | (_ | item | _)
      case nullable.list => exact Cursor.presentAsList item
      case named | list => exact absurd hnullable Bool.false_ne_true
      all_goals exact absurd hlist Bool.false_ne_true
  · rename_i hlist
    have hsingle : declared.isList = false := Bool.eq_false_iff.2 hlist
    split
    · rename_i hnullable
      cases declared with
      | named | list => cases hnullable
      | nullable inner =>
        constructor
        · rintro b ⟨hreaches, hkeep⟩
          have hholds := hl.holds_row h hreaches hkeep
          have hpresent := hl.present_eq h hreaches fun c hc => honly hsingle c b hc hreaches
          have hne : (d.groupWith rules tables j P).present.rows ≠ [] := by
            obtain ⟨x, hx, hP, -⟩ := hholds.held
            rw [hpresent]
            exact List.ne_nil_of_mem (List.mem_map_of_mem (Draft.mem_chosenWith.2 ⟨hx, hP⟩))
          refine ⟨⟨path, inner, .table r (.rows (d.groupWith rules tables j P).present)⟩, ?_, ?_⟩
          · simp [Cursor.present?, hne]
          · rw [hpresent]
            exact hshows _ b True inner hholds (.inl (hl.mem_of_reaches hreaches)) rfl
        · intro hnone
          have hnil := hl.present_eq_nil h hnone
          simp [Cursor.present?, hnil]
    · constructor
      · rintro b ⟨hreaches, hkeep⟩
        have hholds := hl.holds_only h hreaches hkeep fun c hc => honly hsingle c b hc hreaches
        exact hshows P b _ declared hholds (.inl (hl.mem_of_reaches hreaches)) rfl
      · intro hnone
        exact hshows P .absent True declared (hl.holds_absent h hnone) (.inr rfl) rfl

/-- The types of nodes are no abstract types, as no discriminators are mapped. -/
theorem Sql.TableNode.IsOf.concrete {n : TableNode} {path : List String} {type : String}
    (hr : ∀ m ∈ r.allFields, m.isPlain = true) (h : n.IsOf r path type) :
    r.schema.isAbstract type = false := by
  cases habstract : r.schema.isAbstract type with
  | false => rfl
  | true =>
    obtain ⟨column, cases, hsource, -⟩ := h.discriminator habstract
    obtain ⟨m, hmapped, hm⟩ := Option.bind_eq_some_iff.1 hsource
    have hplain := hr m (Registry.mem_allFields_of_fieldMapping? hmapped)
    cases m <;> cases hm
    cases hplain

mutual

/-- A group that holds a row shows it to a query that is laid out at the group's node. -/
theorem Query.LaidOut.shows (hr : ∀ m ∈ r.allFields, m.isPlain = true) (htables : tables.Sound r)
    (hlaid : d.Laid r types)
    (hwanted : ∀ rows, (∀ c ∈ d.conditions, c.eval rules (tagged rows) = some true) ↔
      wanted (rowAt rows 0)) :
    ∀ {q : Query} {i m : Nat} {path : List String} {type : String} {n : TableNode}
      {P : List TableRow → Prop} {row : TableRow} {whole : Prop} {t : TypeRef},
    q.LaidOut r d ⟨i, path, type⟩ → types[i]? = some (path, type) →
      d.NodeOf r i n path type m → Draft.Holds rules tables d m P row whole →
        (row ∈ entityRows r path type tables ∨ row = .absent) → t.underlying = type →
          q.Shows r rules tables path type row whole
            ⟨path, t, .table r (.rows (d.groupWith rules tables i P))⟩
  | .select name _ _ child, i, m, path, type, n, P, row, whole, t, hout, htype, hnode, hholds,
      hrow, hdeclared => by
    have hconcrete : (⟨path, t, .table r (.rows (d.groupWith rules tables i P))⟩ :
        Cursor).concreteType = .ok type := by
      rw [Cursor.concreteType_table rfl, hdeclared, if_neg]
      rw [hnode.isOf.concrete hr]
      exact Bool.false_ne_true
    rw [Query.LaidOut] at hout
    rw [Query.Shows]
    rcases hout with hname | ⟨own, column, isKey, hidden, place, hmapped, hplace⟩ |
      ⟨own, hops, f, j, conds, m', k, hmapped, hf, hchild, hchained, hconds, hbelow⟩
    · exact .inl ⟨hname, hconcrete⟩
    · refine .inr (.inl ⟨own, column, isKey, hidden, hmapped, ?_⟩)
      rintro rfl f hf
      dsimp only at hplace hmapped
      rw [Draft.node_eq hnode.node] at hplace
      have hsource : r.sourceField? path type name = some (.column own column isKey false) := by
        rw [Registry.sourceField?, hmapped]
        rfl
      have hselected : (d.groupWith rules tables i P).node.column? column.column = some place := by
        rw [Draft.groupWith, hnode.group_node]
        exact hplace
      refine ⟨_, Cursor.field_of_column hselected hconcrete hsource hf, ?_⟩
      exact hholds.firstCell hnode hplace
    · dsimp only at hchild hmapped hf hchained
      rw [Draft.node_eq hnode.node] at hchild
      have hsource : r.sourceField? path type name = some (.joined own hops) := by
        rw [Registry.sourceField?, hmapped]
        rfl
      have hfield := Sql.field_of_joined (R := (d.chosenWith rules tables P).map d.rowOf)
        hnode.node hchild hconcrete hsource hf
      refine .inr (.inr ⟨own, hops, f, d.groupWith rules tables j P, hmapped, hf, hfield, ?_⟩)
      have hnumber : m' = m := by
        have hlabel := hchained.parent.2.1
        rw [Draft.node_eq hnode.node, hnode.label] at hlabel
        exact (labelOf_injective hlabel).symm
      subst hnumber
      obtain ⟨t', g, rfl, hg, htype'⟩ :=
        hlaid.typed.child i n path type name j hnode.node htype hchild
      obtain rfl := Option.some.inj (hf.symm.trans hg)
      have hnode' := hlaid.nodeOf htype' hchained.child.2
      have hlinked := hchained.linked hlaid htables hnode'
        (fun rows => hconds.holds hchained.child.2 rows) hwanted
      refine hlinked.showsRelated hholds (fun hlist b c hb hc => ?_)
        fun Q b whole t hholds hb ht =>
          Query.LaidOut.shows hr htables hlaid hwanted hbelow htype' hnode' hholds hb ht
      rcases hrow with hrow | rfl
      · exact htables.singular path t' name own hops f hmapped hf hlist row hrow b c hb hc
      · exact absurd hb (not_reaches_absent hchained.nonempty b)
  | .filter _ child, i, m, path, type, n, P, row, whole, t, hout, htype, hnode, hholds, hrow,
      hdeclared => by
    rw [Query.LaidOut] at hout
    rw [Query.Shows]
    exact Query.LaidOut.shows hr htables hlaid hwanted hout htype hnode hholds hrow hdeclared
  | .group queries, i, m, path, type, n, P, row, whole, t, hout, htype, hnode, hholds, hrow,
      hdeclared => by
    rw [Query.LaidOut] at hout
    rw [Query.Shows]
    exact Query.AllLaidOut.shows hr htables hlaid hwanted hout htype hnode hholds hrow hdeclared
  | .empty, _, _, _, _, _, _, _, _, _, _, _, _, _, _, _ => by
    rw [Query.Shows]
    trivial
  | .unique _, _, _, _, _, _, _, _, _, _, hout, _, _, _, _, _ => by simp [Query.LaidOut] at hout
  | .narrow .., _, _, _, _, _, _, _, _, _, hout, _, _, _, _, _ => by simp [Query.LaidOut] at hout
  | .limit .., _, _, _, _, _, _, _, _, _, hout, _, _, _, _, _ => by simp [Query.LaidOut] at hout
  | .orderBy .., _, _, _, _, _, _, _, _, _, hout, _, _, _, _, _ => by
    simp [Query.LaidOut] at hout
  | .component .., _, _, _, _, _, _, _, _, _, hout, _, _, _, _, _ => by
    simp [Query.LaidOut] at hout
  | .introspect _, _, _, _, _, _, _, _, _, _, hout, _, _, _, _, _ => by
    simp [Query.LaidOut] at hout

theorem Query.AllLaidOut.shows (hr : ∀ m ∈ r.allFields, m.isPlain = true) (htables : tables.Sound r)
    (hlaid : d.Laid r types)
    (hwanted : ∀ rows, (∀ c ∈ d.conditions, c.eval rules (tagged rows) = some true) ↔
      wanted (rowAt rows 0)) :
    ∀ {queries : List Query} {i m : Nat} {path : List String}
    {type : String} {n : TableNode} {P : List TableRow → Prop} {row : TableRow} {whole : Prop}
    {t : TypeRef},
    Query.AllLaidOut r d queries ⟨i, path, type⟩ → types[i]? = some (path, type) →
      d.NodeOf r i n path type m → Draft.Holds rules tables d m P row whole →
        (row ∈ entityRows r path type tables ∨ row = .absent) → t.underlying = type →
          Query.AllShow r rules tables queries path type row whole
            ⟨path, t, .table r (.rows (d.groupWith rules tables i P))⟩
  | [], _, _, _, _, _, _, _, _, _, _, _, _, _, _, _ => by
    rw [Query.AllShow]
    trivial
  | q :: rest, i, m, path, type, n, P, row, whole, t, hout, htype, hnode, hholds, hrow,
      hdeclared => by
    rw [Query.AllLaidOut] at hout
    rw [Query.AllShow]
    exact ⟨Query.LaidOut.shows hr htables hlaid hwanted hout.1 htype hnode hholds hrow hdeclared,
      Query.AllLaidOut.shows hr htables hlaid hwanted hout.2 htype hnode hholds hrow hdeclared⟩

end

end Reading

section Root

variable {r : TableRegistry} {rules : TextRules} {tables : Tables}

/-- Taking apart the rows of a statement at its root gives a group for each wanted row of the
root's table. -/
theorem Sql.Draft.entities_root {d : Draft} {types : List (List String × String)} {n : TableNode}
    {path : List String} {type : String} {wanted : TableRow → Prop} (hlaid : d.Laid r types)
    (htables : tables.Sound r) (hnode : d.NodeOf r 0 n path type 0)
    (hwanted : ∀ rows, (∀ c ∈ d.conditions, c.eval rules (tagged rows) = some true) ↔
      wanted (rowAt rows 0)) :
    ∃ rows : List TableRow, (∀ a, a ∈ rows ↔ a ∈ entityRows r path type tables ∧ wanted a) ∧
      rows.Pairwise (fun a b => KeyBefore (rowKey r path type a) (rowKey r path type b)) ∧
      RowGroup.entities ⟨d.nodes, 0, d.statement.rows rules tables⟩ =
        rows.map fun a => d.groupWith rules tables 0 fun x => True ∧ rowAt x 0 = a := by
  have hlabel : (d.node 0).label = labelOf 0 := by
    rw [Draft.node_eq hnode.node]
    exact hnode.label
  have htable : entityRows r path type tables = tables (d.node 0).table := by
    rw [Draft.node_eq hnode.node]
    exact hnode.isOf.entityRows_eq
  have hall : d.chosenWith rules tables (fun _ => True) = d.chosen rules tables := by
    simp [Draft.chosenWith]
  have hgroup : RowGroup.mk d.nodes 0 (d.statement.rows rules tables) =
      d.groupWith rules tables 0 fun _ => True := by
    rw [Draft.groupWith, hall, Draft.rows_eq hlaid hlabel]
  rw [hgroup]
  refine Draft.entities_groupWith hnode htables (fun a ha => ha.1) (fun x hx _ => .inl ?_)
    (fun a ha => ?_) (fun x hx _ a ha _ hbefore => ?_)
  · rw [htable]
    exact Draft.root_of_chosen hwanted hx
  · obtain ⟨x, hx, hrow⟩ := Draft.exists_chosen hwanted (htable ▸ ha.1) ha.2
    exact ⟨x, hx, trivial, hrow⟩
  · obtain ⟨y, hy, hrow⟩ := Draft.exists_chosen hwanted (htable ▸ ha.1) ha.2
    have hnone : ∀ l < 0, ∀ node, d.nodes[l]? = some node → d.nodeKey node y = d.nodeKey node x :=
      fun l hl => absurd hl (Nat.not_lt_zero l)
    refine ⟨y, hy, trivial, hrow, Draft.sortKeys_before hnode.node hnone ?_⟩
    rw [nodeKey_eq hnode.isOf hnode.placed hnode.label,
      nodeKey_eq hnode.isOf hnode.placed hnode.label, hrow]
    exact hbefore

/-- The elements that are read of the statement of a plan are the rows of the root's table that
satisfy the filters of the root, each once and in ascending order of their keys, and each of them
shows its row to the query. -/
theorem Sql.Plan.elements_show_rows {field : String} {type : TypeRef} {child : Query} {plan : Plan}
    (hr : ∀ m ∈ r.allFields, m.isPlain = true) (hplain : child.isPlain = true)
    (htables : tables.Sound r) (h : Plan.build r field type child = .ok plan) :
    ListsRows (rowKey r [field] type.underlying)
      (fun a => a ∈ entityRows r [field] type.underlying tables ∧
        Satisfies r [field] type.underlying rules child.filters a)
      (fun a element => child.Shows r rules tables [field] type.underlying a True element)
      (Cursor.mk [field] type
        (.table r (.rows ⟨plan.nodes, 0, plan.statement.rows rules tables⟩))).elements := by
  obtain ⟨d, types, hplan, hlaid, htype, hlabel, hconds, hout⟩ := Plan.laidOut hr hplain h
  have hwanted : ∀ rows, (∀ c ∈ d.conditions, c.eval rules (tagged rows) = some true) ↔
      Satisfies r [field] type.underlying rules child.filters (rowAt rows 0) :=
    fun rows => hconds.holds rfl rows
  have hnode := hlaid.nodeOf htype hlabel
  obtain ⟨rows, hmem, hsorted, hentities⟩ := Draft.entities_root hlaid htables hnode hwanted
  have hgroup : RowGroup.mk plan.nodes 0 (plan.statement.rows rules tables) =
      ⟨d.nodes, 0, d.statement.rows rules tables⟩ := by
    rw [hplan]
    rfl
  refine ⟨rows, hmem, hsorted, ?_⟩
  rw [hgroup]
  simp only [Cursor.elements, hentities, List.map_map]
  rw [List.forall₂_map_right_iff, List.forall₂_same]
  intro a ha
  obtain ⟨hentity, hsatisfies⟩ := (hmem a).1 ha
  obtain ⟨x, hx, hrow⟩ := Draft.exists_chosen hwanted
    (hnode.isOf.entityRows_eq ▸ hentity) hsatisfies
  have hholds : Draft.Holds rules tables d 0 (fun x => True ∧ rowAt x 0 = a) a True := by
    constructor
    case held => exact ⟨x, hx, ⟨trivial, hrow⟩, hrow⟩
    case rows => exact fun y _ hy => .inl hy.2
    case upTo => exact fun y z htake hy =>
      ⟨trivial, (rowAt_of_take htake (Nat.lt_succ_self _)).symm.trans hy.2⟩
    case filled => exact fun _ y _ hy => hy.2
    case broken => exact fun hbroken => absurd trivial hbroken
  exact Query.LaidOut.shows hr htables hlaid hwanted hout htype hnode hholds (.inl hentity)
    type.underlying_element

end Root

namespace Pets

def ownerHops : List Hop :=
  [⟨⟨"pet", "id"⟩, ⟨"ownership", "pet"⟩⟩, ⟨⟨"ownership", "person"⟩, ⟨"person", "id"⟩⟩]

def petHops : List Hop :=
  [⟨⟨"person", "id"⟩, ⟨"ownership", "person"⟩⟩, ⟨⟨"ownership", "pet"⟩, ⟨"pet", "id"⟩⟩]

/-- Pets and their owners, with a table that says who owns which. -/
def registry : TableRegistry where
  schema := Schema.ofTypes [
    .object ⟨"Query", [⟨"pets", [], .list (.named "Pet")⟩], []⟩,
    .object ⟨"Pet", [⟨"name", [], .named "String"⟩, ⟨"owner", [], .named "Person"⟩], []⟩,
    .object ⟨"Person", [⟨"name", [], .named "String"⟩, ⟨"pets", [], .list (.named "Pet")⟩], []⟩]
    "Query"
  types := [
    .object ⟨"Query", [.root "pets" ()]⟩,
    .object ⟨"Pet", [
      .source (.column "id" ⟨"pet", "id"⟩ true true),
      .source (.column "name" ⟨"pet", "name"⟩ false false),
      .source (.joined "owner" ownerHops)]⟩,
    .object ⟨"Person", [
      .source (.column "id" ⟨"person", "id"⟩ true true),
      .source (.column "name" ⟨"person", "name"⟩ false false),
      .source (.joined "pets" petHops)]⟩]
  elaborators := []

def called (id : Int64) (name : String) : TableRow
  | "id" => .integer id
  | "name" => .text name
  | _ => .null

def owned (pet : Int64) (person : Cell) : TableRow
  | "pet" => .integer pet
  | "person" => person
  | _ => .null

/-- Ann owns both pets; of Rex it is also said that somebody owns it. -/
def tables : Tables
  | "pet" => [called 1 "Rex", called 2 "Tom"]
  | "person" => [called 1 "Ann"]
  | "ownership" => [owned 1 .null, owned 1 (.integer 1), owned 2 (.integer 1)]
  | _ => []

def rules : TextRules := ⟨id, fun _ _ => false⟩

/-- All pets that are not called Kim with their owners and all pets of these. -/
def query : Query :=
  .filter (.ne (.path ["name"]) (.const (.string "Kim"))) (.group [.field "name",
    .select "owner" none [] (.group [.field "name", .select "pets" none [] (.field "name")])])

theorem isOk_build :
    (Plan.build registry "pets" (.list (.named "Pet")) query).isOk = true := by
  decide +kernel

theorem fields_plain : ∀ m ∈ registry.allFields, m.isPlain = true := by decide

theorem no_interfaces (type : String) : registry.schema.interfaces type = [] := by
  rw [Schema.interfaces]
  cases h : registry.schema.find? type with
  | none => rfl
  | some d =>
    have hd := List.mem_of_find?_eq_some h
    simp only [registry, Schema.ofTypes, List.mem_append, List.mem_map, List.mem_cons,
      List.not_mem_nil, or_false] at hd
    rcases hd with ⟨_, -, rfl⟩ | rfl | rfl | rfl <;> rfl

theorem objectMapping?_cases (path : List String) (type : String) :
    registry.objectMapping? path type = none ∨ type = "Query" ∨ type = "Pet" ∨
      type = "Person" := by
  by_cases hquery : type = "Query"
  · exact .inr (.inl hquery)
  by_cases hpet : type = "Pet"
  · exact .inr (.inr (.inl hpet))
  by_cases hperson : type = "Person"
  · exact .inr (.inr (.inr hperson))
  · left
    simp [Registry.objectMapping?, Registry.typeMapping?, registry, TypeMapping.type,
      Ne.symm hquery, Ne.symm hpet, Ne.symm hperson]

/-- Only pets and persons are kept in tables, and told apart by their numbers. -/
theorem entity_cases {path : List String} {type : String} {a : TableRow}
    (ha : a ∈ entityRows registry path type tables) :
    rowKey registry path type = (fun row => [row "id"]) ∧
      ((type = "Pet" ∧ (a = called 1 "Rex" ∨ a = called 2 "Tom")) ∨
        type = "Person" ∧ a = called 1 "Ann") := by
  have hkeys : keyColumns registry path type = ((registry.objectMapping? path type).bind fun m =>
      let keys := m.fields.filterMap fun f => f.source?.bind (·.keyColumn?)
      if keys.isEmpty then none else some keys).getD [] := by
    rw [keyColumns, Schema.search_of_no_interfaces (no_interfaces type)]
  rcases objectMapping?_cases path type with h | rfl | rfl | rfl
  · rw [entityRows, hkeys, h] at ha
    cases ha
  · cases ha
  · have hpet : a ∈ tables "pet" := ha
    exact ⟨rfl, .inl ⟨rfl, by simpa [tables] using hpet⟩⟩
  · have hperson : a ∈ tables "person" := ha
    exact ⟨rfl, .inr ⟨rfl, by simpa [tables] using hperson⟩⟩

theorem joined_cases {path : List String} {type name own : String} {hops : List Hop}
    (h : registry.fieldMapping? path type name = some (.source (.joined own hops))) :
    (name = "owner" ∧ hops = ownerHops) ∨ name = "pets" ∧ hops = petHops := by
  have hmem := Registry.mem_allFields_of_fieldMapping? h
  rw [Registry.fieldMapping?, Schema.search_of_no_interfaces (no_interfaces type)] at h
  obtain ⟨m, -, hm⟩ := Option.bind_eq_some_iff.1 h
  rw [ObjectMapping.field?] at hm
  have hname := List.find?_some hm
  obtain rfl : own = name := of_decide_eq_true hname
  simpa [registry, Registry.allFields] using hmem

theorem sound : tables.Sound registry := by
  constructor
  case keyed =>
    intro path type a ha
    obtain ⟨hkey, ⟨-, rfl | rfl⟩ | ⟨-, rfl⟩⟩ := entity_cases ha <;>
      simp [hkey, called, Cell.rank]
  case unique =>
    intro path type a ha b hb h
    obtain ⟨hkey, hrow⟩ := entity_cases ha
    obtain ⟨-, hrow'⟩ := entity_cases hb
    rw [hkey] at h
    rcases hrow with ⟨rfl, rfl | rfl⟩ | ⟨rfl, rfl⟩ <;>
      rcases hrow' with ⟨htype, rfl | rfl⟩ | ⟨htype, rfl⟩ <;>
        first
          | exact absurd htype (by decide)
          | rfl
          | exact absurd h (by decide +kernel)
  case singular =>
    intro path type name own hops f hmapped hf hlist a ha b c hb hc
    rcases joined_cases hmapped with ⟨rfl, rfl⟩ | ⟨rfl, rfl⟩
    · have hann := hb.mem rfl
      have hann' := hc.mem rfl
      exact (List.mem_singleton.1 hann).trans (List.mem_singleton.1 hann').symm
    · obtain ⟨-, ⟨rfl, -⟩ | ⟨rfl, -⟩⟩ := entity_cases ha
      · cases hf
      · cases hf
        cases hlist

/-- The pets that are read are the two that are not called Kim, with what is theirs. -/
theorem pets_shown : ∃ plan,
    Plan.build registry "pets" (.list (.named "Pet")) query = .ok plan ∧ tables.Sound registry ∧
      ListsRows (rowKey registry ["pets"] "Pet")
        (fun a => a ∈ entityRows registry ["pets"] "Pet" tables ∧
          Satisfies registry ["pets"] "Pet" rules query.filters a)
        (fun a element => query.Shows registry rules tables ["pets"] "Pet" a True element)
        (Cursor.mk ["pets"] (.list (.named "Pet")) (.table registry
          (.rows ⟨plan.nodes, 0, plan.statement.rows rules tables⟩))).elements := by
  cases h : Plan.build registry "pets" (.list (.named "Pet")) query with
  | error _ =>
    have hok := isOk_build
    rw [h] at hok
    cases hok
  | ok plan => exact ⟨plan, rfl, sound, Plan.elements_show_rows fields_plain (by decide) sound h⟩

/-- The names of the owners of pets, as they are displayed. -/
def ownerNames : Except Fault (List String) := do
  let plan ← Plan.build registry "pets" (.list (.named "Pet")) query
  let pets := Cursor.mk ["pets"] (.list (.named "Pet"))
    (.table registry (.rows ⟨plan.nodes, 0, plan.statement.rows rules tables⟩))
  pets.elements.mapM fun pet => do
    let owner ← pet.field "owner"
    let name ← owner.field "name"
    let value ← name.leaf
    pure value.display

/-- The way to an owner who is not known breaks off, and its nulls hide the owner of Rex. -/
example : ownerNames.toOption = some ["null", "\"Ann\""] := by decide +kernel

end Pets

end MappedQuery
