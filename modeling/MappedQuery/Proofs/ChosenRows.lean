import MappedQuery.Proofs.Flattening
import MappedQuery.Proofs.PlanLayout

/-!
# The rows that a plan's statement chooses

The statement of a plan that is laid out chooses lists of rows, one of each table. What a list
holds of a child's table is where the hops of the field land from the row of its node's table, and
where they can land a list is chosen that differs only in the tables that are joined from there
on. As the tables of the nodes before stay as they are, the order of the two lists is that of the
keys of the child's rows.
-/
namespace MappedQuery.Sql

open Planning

section Entities

variable (r : TableRegistry) (path : List String) (type : String)

/-- The rows of the table that holds the entities of a type. -/
def entityRows (tables : Tables) : List TableRow :=
  match keyColumns r path type with
  | [] => []
  | first :: rest => if rest.all (·.table = first.table) then tables first.table else []

/-- The key of an entity of a type. -/
def rowKey (row : TableRow) : List Cell :=
  (keyColumns r path type).map fun key => row key.column

/-- The cell of a row that an operand names, which is a field of the type. -/
def fieldCell (row : TableRow) : Term → Cell
  | .const v => .bound v
  | .path [name] =>
    match r.sourceField? path type name with
    | some (.column _ column _ _) => row column.column
    | _ => .null
  | .path _ => .null

/-- A database says of a row that it satisfies all filters. -/
def Satisfies (rules : TextRules) (filters : List Predicate) (row : TableRow) : Prop :=
  ∀ p ∈ filters, p.truth rules (fieldCell r path type row) = some true

/-- In the order of a database one key comes before another. -/
def KeyBefore (a b : List Cell) : Prop := List.compareLex Cell.sortOrder a b = .lt

end Entities

/-- Tables keep what their keys and fields promise: keys have no nulls and tell the rows of a
table apart, and a field that is no list leads to one row at most. -/
structure Tables.Sound (tables : Tables) (r : TableRegistry) : Prop where
  keyed : ∀ path type, ∀ a ∈ entityRows r path type tables, ∀ c ∈ rowKey r path type a, c.rank ≠ 0
  unique : ∀ path type, ∀ a ∈ entityRows r path type tables, ∀ b ∈ entityRows r path type tables,
    List.compareLex Cell.sortOrder (rowKey r path type a) (rowKey r path type b) = .eq → a = b
  singular : ∀ path type name own hops f,
    r.fieldMapping? path type name = some (.source (.joined own hops)) →
      r.schema.field? type name = some f → f.type.isList = false →
        ∀ a ∈ entityRows r path type tables, ∀ b c,
          Reaches tables hops a b → Reaches tables hops a c → b = c

section Translation

variable {r : TableRegistry} {rules : TextRules}

/-- An operand that is said over a node's table has the cell that the node's row has. -/
theorem operandCell_eq {n : TableNode} {place : Place} {m : Nat} (hlabel : n.label = labelOf m)
    (rows : List TableRow) {t : Term} {e : Expression} (h : expression? r n place t = some e) :
    operandCell r n place rules (tagged rows) t =
      fieldCell r place.path place.type (rowAt rows m) t := by
  rw [operandCell, h]
  unfold expression? at h
  split at h
  · rename_i v
    split at h
    · rename_i c hc
      cases h
      simp [fieldCell, Cell.bound, hc, Expression.eval]
    · cases h
  · rename_i name
    split at h
    · rename_i own column isKey hidden hsource
      split at h
      · cases h
        simp [fieldCell, hsource, Expression.eval, hlabel, cell_tagged]
      · cases h
    · cases h
  · cases h

/-- The conditions of filters hold where the row of their table satisfies the filters. -/
theorem Translated.holds {label : String} {place : Place} {filters : List Predicate}
    {conds : List Condition} (h : Translated r label place filters conds) {m : Nat}
    (hlabel : label = labelOf m) (rows : List TableRow) :
    (∀ c ∈ conds, c.eval rules (tagged rows) = some true) ↔
      Satisfies r place.path place.type rules filters (rowAt rows m) := by
  induction h with
  | nil => simp [Satisfies]
  | @cons p c filters conds hp _ ih =>
    obtain ⟨n, hn, hcondition⟩ := hp
    have heval : c.eval rules (tagged rows) =
        p.truth rules (fieldCell r place.path place.type (rowAt rows m)) := by
      rw [Predicate.condition_eval rules (tagged rows) hcondition]
      refine Predicate.truth_congr fun t ht => ?_
      obtain ⟨e, he⟩ := Predicate.expression_of_condition hcondition ht
      exact operandCell_eq (hn.trans hlabel) rows he
    unfold Satisfies at ih ⊢
    rw [List.forall_mem_cons, List.forall_mem_cons, heval, ih]

end Translation

/-- What a node says of rows: the cells of its key columns. -/
def Draft.nodeKey (d : Draft) (n : TableNode) (rows : List TableRow) : List Cell :=
  n.keys.map fun k => (tagged rows).cell (d.columns.getD k default)

/-- The row that a statement makes of rows, one of each table. -/
def Draft.rowOf (d : Draft) (rows : List TableRow) : Row := d.columns.map (tagged rows).cell

section Forall₂

variable {α β γ : Type} {R : α → β → Prop} {as : List α} {bs : List β}

private theorem map_eq_of_forall₂ (h : List.Forall₂ R as bs) {f : β → γ} {g : α → γ}
    (hR : ∀ a b, R a b → f b = g a) : bs.map f = as.map g := by
  induction h with
  | nil => rfl
  | cons hab _ ih => rw [List.map_cons, List.map_cons, hR _ _ hab, ih]

end Forall₂

section Keys

variable {r : TableRegistry} {tables : Tables} {path : List String} {type : String}
  {n : TableNode} {d : Draft} {m : Nat}

/-- The entities of a type are in the table of a node of the type. -/
theorem TableNode.IsOf.entityRows_eq (h : n.IsOf r path type) :
    entityRows r path type tables = tables n.table := by
  obtain ⟨first, rest, hkeys, htable⟩ := h.table
  have hsame := (List.forall₂_and_left _ _).1 h.keys
  rw [hkeys] at hsame
  have hall : rest.all (·.table = first.table) = true := by
    rw [List.all_eq_true]
    intro key hkey
    simpa [htable] using hsame.1 key (List.mem_cons_of_mem _ hkey)
  rw [entityRows, hkeys]
  simp only [hall, if_true, htable]

theorem rowKey_ne_nil (h : n.IsOf r path type) (row : TableRow) : rowKey r path type row ≠ [] := by
  obtain ⟨first, rest, hkeys, -⟩ := h.table
  simp [rowKey, hkeys]

/-- The cell at the place of a column of a node is that of the node's row. -/
theorem cell_of_column (hplaced : n.Placed d.columns) (hlabel : n.label = labelOf m)
    (rows : List TableRow) {name : String} {place : Nat} (h : n.column? name = some place) :
    (d.rowOf rows)[place]? = some (rowAt rows m name) ∧
      (tagged rows).cell (d.columns.getD place default) = rowAt rows m name := by
  have hcolumn := hplaced name place h
  have hcell : (tagged rows).cell ⟨some ⟨n.label, none⟩, name⟩ = rowAt rows m name := by
    rw [hlabel, cell_tagged]
  constructor
  · rw [Draft.rowOf, List.getElem?_map, hcolumn, Option.map_some, hcell]
  · rw [List.getD_eq_getElem?_getD, hcolumn, Option.getD_some, hcell]

/-- The key columns of a node hold the key of the node's row. -/
theorem nodeKey_eq (h : n.IsOf r path type) (hplaced : n.Placed d.columns)
    (hlabel : n.label = labelOf m) (rows : List TableRow) :
    d.nodeKey n rows = rowKey r path type (rowAt rows m) := by
  refine map_eq_of_forall₂ h.keys fun key place hkey => ?_
  exact (cell_of_column hplaced hlabel rows hkey.2).2

/-- A row whose key has no nulls belongs to the entity of the key. -/
theorem keyAt?_rowOf (h : n.IsOf r path type) (hplaced : n.Placed d.columns)
    (hlabel : n.label = labelOf m) {rows : List TableRow}
    (hkeyed : ∀ c ∈ rowKey r path type (rowAt rows m), c.isNull = false) :
    RowGroup.keyAt? n (d.rowOf rows) = some (rowKey r path type (rowAt rows m)) := by
  rw [← nodeKey_eq h hplaced hlabel rows] at hkeyed ⊢
  refine mapM_eq_pure fun place hplace => ?_
  obtain ⟨key, -, -, hname⟩ := h.key hplace
  obtain ⟨hcell, hsame⟩ := cell_of_column hplaced hlabel rows hname
  have hnull := hkeyed _ (List.mem_map_of_mem hplace)
  rw [hsame] at hnull ⊢
  rw [hcell]
  simp [Option.filter, hnull]

/-- A row of nulls belongs to no entity. -/
theorem keyAt?_absent (h : n.IsOf r path type) (hplaced : n.Placed d.columns)
    (hlabel : n.label = labelOf m) {rows : List TableRow} (habsent : rowAt rows m = .absent) :
    RowGroup.keyAt? n (d.rowOf rows) = none := by
  obtain ⟨first, rest, hkeys, -⟩ := h.table
  have hall := h.keys
  rw [hkeys] at hall
  cases hplaces : n.keys with
  | nil =>
    rw [hplaces] at hall
    cases hall
  | cons place places =>
    rw [hplaces] at hall
    obtain ⟨⟨-, hplace⟩, -⟩ := List.forall₂_cons.1 hall
    have hcell := (cell_of_column hplaced hlabel rows hplace).1
    rw [habsent] at hcell
    rw [RowGroup.keyAt?, hplaces, List.mapM_cons, hcell]
    rfl

end Keys

namespace Draft

variable {r : TableRegistry} {rules : TextRules} {tables : Tables} {d : Draft}
  {types : List (List String × String)} {rows rows' : List TableRow}

/-- The lists of rows, one of each table, that the statement of a draft chooses, in order. -/
def chosen (rules : TextRules) (tables : Tables) (d : Draft) : List (List TableRow) :=
  d.statement.chosen rules tables (d.node 0).table

theorem mem_chosen : rows ∈ d.chosen rules tables ↔
    (∃ a ∈ tables (d.node 0).table, rows ∈ extensions rules tables d.joins [a]) ∧
      ∀ c ∈ d.conditions, c.eval rules (tagged rows) = some true := by
  have hcondition : d.statement.condition?.getD .always = Condition.all d.conditions := by
    simp only [statement, Statement.addCondition, Option.getD_none, Condition.always_conjoin]
    split
    · rename_i halways
      cases hall : Condition.all d.conditions <;> simp_all [Condition.isAlways]
    · rfl
  rw [chosen, Statement.mem_chosen, hcondition, Condition.all, foldl_conjoin_eval]
  simp [Condition.eval, statement, Statement.addCondition]

theorem sortKeys_eq (rows : List TableRow) :
    d.statement.sortKeys rules rows = d.nodes.flatMap fun n => d.nodeKey n rows := by
  have horder : d.statement.order = d.keyColumns.map .column := rfl
  rw [Statement.sortKeys, horder, List.map_map, keyColumns, List.map_flatMap]
  refine List.flatMap_congr fun n _ => ?_
  rw [List.map_map]
  rfl

/-- The rows of a statement are made of the lists that it chooses. -/
theorem rows_eq (h : d.Laid r types) (hroot : (d.node 0).label = labelOf 0) :
    d.statement.rows rules tables = (d.chosen rules tables).map d.rowOf := by
  have htable : d.statement.table? = some ⟨(d.node 0).table, some (labelOf 0)⟩ := by
    rw [← hroot]
    rfl
  have hnamed : ∀ i j, d.statement.joins[i]? = some j → j.table.reference = labelOf (1 + i) := by
    intro i j hj
    rw [Table.reference, h.named i j hj, Option.getD_some, Nat.add_comm]
  have hcolumns : d.statement.columns = d.columns.map .column := rfl
  rw [Statement.rows, Statement.joinedRows_eq htable hnamed, List.map_map]
  refine List.map_congr_left fun rows _ => ?_
  rw [Function.comp_apply, hcolumns, List.map_map]
  rfl

/-- Two lists of rows are in the order of the keys of a node if those of the nodes before are the
same. -/
theorem sortKeys_before {j : Nat} {n : TableNode} (hn : d.nodes[j]? = some n)
    (hfront : ∀ l < j, ∀ x, d.nodes[l]? = some x → d.nodeKey x rows' = d.nodeKey x rows)
    (hbefore : KeyBefore (d.nodeKey n rows') (d.nodeKey n rows)) :
    KeyBefore (d.statement.sortKeys rules rows') (d.statement.sortKeys rules rows) := by
  obtain ⟨hj, hget⟩ := List.getElem?_eq_some_iff.1 hn
  have hsplit : d.nodes = d.nodes.take j ++ n :: d.nodes.drop (j + 1) := by
    rw [← hget, ← List.drop_eq_getElem_cons hj, List.take_append_drop]
  have htake : (d.nodes.take j).flatMap (fun x => d.nodeKey x rows') =
      (d.nodes.take j).flatMap fun x => d.nodeKey x rows := by
    refine List.flatMap_congr fun x hx => ?_
    obtain ⟨l, hl, hx⟩ := List.mem_take_iff_getElem.1 hx
    refine hfront l (by omega) x ?_
    rw [← hx]
    exact List.getElem?_eq_getElem _
  have hlength : (d.nodeKey n rows').length = (d.nodeKey n rows).length := by
    rw [nodeKey, nodeKey, List.length_map, List.length_map]
  rw [KeyBefore] at hbefore
  rw [sortKeys_eq, sortKeys_eq, hsplit, List.flatMap_append, List.flatMap_append,
    List.flatMap_cons, List.flatMap_cons, htake, KeyBefore, compareLex_append_left,
    compareLex_append hlength, hbefore]
  rfl

section Chains

variable {i j m k : Nat} {hops : List Hop} {conds : List Condition} {keep wanted : TableRow → Prop}

/-- The nodes before a child have the same keys in lists that agree up to the child's joins. -/
theorem Chained.nodeKey_eq (hchained : d.Chained i j hops conds m k) (hlaid : d.Laid r types)
    (htake : rows'.take k = rows.take k) {l : Nat} (hl : l < j) {x : TableNode}
    (hx : d.nodes[l]? = some x) : d.nodeKey x rows' = d.nodeKey x rows := by
  obtain ⟨n, hn, hlabel⟩ := hchained.before l hl
  rw [node_eq hx] at hlabel
  have hlt : l < types.length := hlaid.typed.length ▸ (List.getElem?_eq_some_iff.1 hx).1
  have htype : types[l]? = some (types[l].1, types[l].2) := List.getElem?_eq_getElem hlt
  have hof := hlaid.typed.node l x _ _ hx htype
  have hplaced := hlaid.placed l x hx
  rw [Sql.nodeKey_eq hof hplaced hlabel, Sql.nodeKey_eq hof hplaced hlabel,
    rowAt_of_take htake hn]

/-- What a chosen list holds of a child's table is where the hops of the field land. -/
theorem Chained.lands (hchained : d.Chained i j hops conds m k)
    (hkeep : ∀ rows, (∀ c ∈ conds, c.eval rules (tagged rows) = some true) ↔
      keep (rowAt rows (k + hops.length - 1)))
    (hrows : rows ∈ d.chosen rules tables) :
    Lands tables keep hops (rowAt rows m) (rowAt rows (k + hops.length - 1)) := by
  obtain ⟨⟨front, back, hjoins, hfront⟩, hne, ⟨-, -, hm⟩, -⟩ := hchained
  obtain ⟨⟨a, -, hrows⟩, -⟩ := mem_chosen.1 hrows
  rw [hjoins, mem_extensions_append] at hrows
  obtain ⟨mid, hmid, hrows⟩ := hrows
  obtain ⟨first, hfirst, hchain⟩ := mem_extensions_append.1 hmid
  obtain ⟨-, hlength⟩ := prefix_of_mem_extensions hfirst
  obtain ⟨hextends, hlength'⟩ := prefix_of_mem_extensions hchain
  obtain ⟨hextends', -⟩ := prefix_of_mem_extensions hrows
  have hpos := List.length_pos_of_ne_nil hne
  rw [List.length_singleton] at hlength
  rw [length_chainJoins] at hlength'
  have hlands := (exists_chain_iff_lands hne (by omega) hm hkeep
    (rowAt mid (k + hops.length - 1))).1 ⟨mid, hchain, rfl⟩
  rw [rowAt_of_isPrefix (hextends.trans hextends') (by omega), rowAt_of_isPrefix hextends' (by omega)]
  exact hlands

/-- Where the hops of a field can land, a list is chosen that differs from the child's joins on
only. -/
theorem Chained.exists_chosen (hchained : d.Chained i j hops conds m k)
    (hkeep : ∀ rows, (∀ c ∈ conds, c.eval rules (tagged rows) = some true) ↔
      keep (rowAt rows (k + hops.length - 1)))
    (hwanted : ∀ rows, (∀ c ∈ d.conditions, c.eval rules (tagged rows) = some true) ↔
      wanted (rowAt rows 0))
    (hrows : rows ∈ d.chosen rules tables) {c : TableRow}
    (hlands : Lands tables keep hops (rowAt rows m) c) :
    ∃ rows' ∈ d.chosen rules tables, rows'.take k = rows.take k ∧
      rowAt rows' (k + hops.length - 1) = c := by
  obtain ⟨⟨front, back, hjoins, hfront⟩, hne, ⟨-, -, hm⟩, -⟩ := hchained
  obtain ⟨⟨a, ha, hrows⟩, hconditions⟩ := mem_chosen.1 hrows
  rw [hjoins, List.append_assoc, mem_extensions_append] at hrows
  obtain ⟨first, hfirst, hrows⟩ := hrows
  obtain ⟨-, hlength⟩ := prefix_of_mem_extensions hfirst
  obtain ⟨hextends, -⟩ := prefix_of_mem_extensions hrows
  have hpos := List.length_pos_of_ne_nil hne
  rw [List.length_singleton] at hlength
  rw [rowAt_of_isPrefix hextends (by omega)] at hlands
  obtain ⟨mid, hmid, hc⟩ := (exists_chain_iff_lands hne (by omega) hm hkeep c).2 hlands
  obtain ⟨rows', hrows'⟩ : ∃ rows', rows' ∈ extensions rules tables back mid :=
    exists_extension back mid
  obtain ⟨hextendsMid, hlengthMid⟩ := prefix_of_mem_extensions hmid
  obtain ⟨hextendsRows, -⟩ := prefix_of_mem_extensions hrows'
  rw [length_chainJoins] at hlengthMid
  have hextends' := hextendsMid.trans hextendsRows
  have htake {l : List TableRow} (h : first <+: l) : l.take k = first := by
    obtain ⟨rest, rfl⟩ := h
    rw [List.take_append_of_le_length (by omega), List.take_of_length_le (by omega)]
  refine ⟨rows', mem_chosen.2 ⟨⟨a, ha, ?_⟩, ?_⟩, (htake hextends').trans (htake hextends).symm, ?_⟩
  · rw [hjoins, List.append_assoc, mem_extensions_append]
    exact ⟨first, hfirst, mem_extensions_append.2 ⟨mid, hmid, hrows'⟩⟩
  · have hsame : rowAt rows' 0 = rowAt rows 0 := by
      rw [rowAt_of_isPrefix hextends' (by omega), rowAt_of_isPrefix hextends (by omega)]
    rw [hwanted, hsame, ← hwanted]
    exact hconditions
  · rw [rowAt_of_isPrefix hextendsRows (by omega)]
    exact hc

end Chains

/-- A chosen list starts with a row of the root's table that is wanted. -/
theorem root_of_chosen {wanted : TableRow → Prop}
    (hwanted : ∀ rows, (∀ c ∈ d.conditions, c.eval rules (tagged rows) = some true) ↔
      wanted (rowAt rows 0))
    (h : rows ∈ d.chosen rules tables) :
    rowAt rows 0 ∈ tables (d.node 0).table ∧ wanted (rowAt rows 0) := by
  obtain ⟨⟨a, ha, hrows⟩, hconditions⟩ := mem_chosen.1 h
  obtain ⟨hextends, -⟩ := prefix_of_mem_extensions hrows
  refine ⟨?_, (hwanted rows).1 hconditions⟩
  rw [rowAt_of_isPrefix hextends (by simp)]
  exact ha

/-- Every row of the root's table that is wanted starts a chosen list. -/
theorem exists_chosen {wanted : TableRow → Prop}
    (hwanted : ∀ rows, (∀ c ∈ d.conditions, c.eval rules (tagged rows) = some true) ↔
      wanted (rowAt rows 0))
    {a : TableRow} (ha : a ∈ tables (d.node 0).table) (h : wanted a) :
    ∃ rows ∈ d.chosen rules tables, rowAt rows 0 = a := by
  obtain ⟨rows, hrows⟩ : ∃ rows, rows ∈ extensions rules tables d.joins [a] :=
    exists_extension d.joins [a]
  obtain ⟨hextends, -⟩ := prefix_of_mem_extensions hrows
  have hfirst : rowAt rows 0 = a := rowAt_of_isPrefix hextends (by simp)
  exact ⟨rows, mem_chosen.2 ⟨⟨a, ha, hrows⟩, (hwanted rows).2 (hfirst.symm ▸ h)⟩, hfirst⟩

end Draft

end MappedQuery.Sql
