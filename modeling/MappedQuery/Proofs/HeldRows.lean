import MappedQuery.Proofs.ChosenRows

/-!
# Groups that hold a row

A group of the rows of a statement is made of the chosen lists with some property. Taken apart by
the keys of a node, it gives one group for each row of the node's table in it, in ascending order
of the keys. `Draft.Holds` says that a group holds a row: it is made of lists that have the row,
and lists in which left joins have not reached it if the position is not `whole`; as nulls come
first in the order, such a list is the first of the group.
-/
namespace MappedQuery.Sql

open Planning

private theorem exists_map_eq {α β : Type} {Q : α → Prop} {f : α → β} {keys : List β}
    (h : ∀ k ∈ keys, ∃ a, Q a ∧ f a = k) : ∃ as : List α, (∀ a ∈ as, Q a) ∧ as.map f = keys := by
  induction keys with
  | nil => exact ⟨[], by simp, rfl⟩
  | cons k keys ih =>
    obtain ⟨a, ha, hk⟩ := h k List.mem_cons_self
    obtain ⟨as, has, hkeys⟩ := ih fun k hk => h k (List.mem_cons_of_mem _ hk)
    refine ⟨a :: as, fun b hb => ?_, by rw [List.map_cons, hk, hkeys]⟩
    rcases List.mem_cons.1 hb with rfl | hb
    · exact ha
    · exact has b hb

namespace Draft

open Classical in
/-- The chosen lists of rows that have a property. -/
noncomputable def chosenWith (rules : TextRules) (tables : Tables) (d : Draft)
    (P : List TableRow → Prop) : List (List TableRow) :=
  (d.chosen rules tables).filter fun x => P x

/-- The rows of a statement that are made of the chosen lists with a property, seen at a node. -/
noncomputable def groupWith (rules : TextRules) (tables : Tables) (d : Draft) (j : Nat)
    (P : List TableRow → Prop) : RowGroup :=
  ⟨d.nodes, j, (d.chosenWith rules tables P).map d.rowOf⟩

variable {r : TableRegistry} {rules : TextRules} {tables : Tables} {d : Draft}
  {types : List (List String × String)} {P Q : List TableRow → Prop}

theorem mem_chosenWith {x : List TableRow} :
    x ∈ d.chosenWith rules tables P ↔ x ∈ d.chosen rules tables ∧ P x := by
  simp [chosenWith]

/-- The rows of lists with a property that are kept by what is read of them. -/
theorem filter_groupWith (p : Row → Bool) (h : ∀ x ∈ d.chosen rules tables, P x →
      (p (d.rowOf x) = true ↔ Q x)) :
    ((d.chosenWith rules tables P).map d.rowOf).filter p =
      (d.chosenWith rules tables fun x => P x ∧ Q x).map d.rowOf := by
  rw [List.filter_map, chosenWith, List.filter_filter, chosenWith]
  congr 1
  refine List.filter_congr fun x hx => ?_
  by_cases hP : P x
  · simp [hP, ← h x hx hP]
  · simp [hP]

/-- The chosen lists with a property are in the order of the statement. -/
theorem pairwise_chosenWith : (d.chosenWith rules tables P).Pairwise fun x y =>
    List.compareLex Cell.sortOrder (d.statement.sortKeys rules y) (d.statement.sortKeys rules x) ≠
      .lt :=
  Statement.pairwise_chosen.sublist List.filter_sublist

/-- No list with a property comes before the first one. -/
theorem not_before_first {x y : List TableRow}
    (hhead : (d.chosenWith rules tables P).head? = some x) (hy : y ∈ d.chosen rules tables)
    (hP : P y) : ¬ KeyBefore (d.statement.sortKeys rules y) (d.statement.sortKeys rules x) := by
  intro hbefore
  have hmem := mem_chosenWith.2 ⟨hy, hP⟩
  have hsorted : (d.chosenWith rules tables P).Pairwise fun x y => ¬ KeyBefore
      (d.statement.sortKeys rules y) (d.statement.sortKeys rules x) := pairwise_chosenWith
  obtain ⟨rest, hrest⟩ := List.head?_eq_some_iff.1 hhead
  rw [hrest] at hmem hsorted
  rcases List.mem_cons.1 hmem with rfl | hmem
  · have hself : List.compareLex Cell.sortOrder (d.statement.sortKeys rules y)
        (d.statement.sortKeys rules y) = .eq := Std.ReflCmp.compare_self
    rw [KeyBefore, hself] at hbefore
    cases hbefore
  · exact (List.pairwise_cons.1 hsorted).1 y hmem hbefore

/-- A node of a draft that is laid out, with its type and the number of its table. -/
structure NodeOf (d : Draft) (r : TableRegistry) (j : Nat) (n : TableNode) (path : List String)
    (type : String) (m : Nat) : Prop where
  node : d.nodes[j]? = some n
  isOf : n.IsOf r path type
  placed : n.Placed d.columns
  label : n.label = labelOf m

theorem Laid.nodeOf (h : d.Laid r types) {j : Nat} {path : List String} {type : String}
    (hj : types[j]? = some (path, type)) {m : Nat} (hlabel : (d.node j).label = labelOf m) :
    d.NodeOf r j (d.node j) path type m := by
  obtain ⟨n, hn, hof⟩ := h.typed.exists_node hj
  have hplaced := h.placed j n hn
  rw [node_eq hn] at hlabel ⊢
  exact ⟨hn, hof, hplaced, hlabel⟩

section Entities

variable {j m : Nat} {n : TableNode} {path : List String} {type : String}
  {related : TableRow → Prop}

theorem NodeOf.group_node (h : d.NodeOf r j n path type m) (rows : List Row) :
    RowGroup.node ⟨d.nodes, j, rows⟩ = n := by
  rw [RowGroup.node, List.getD_eq_getElem?_getD, h.node]
  rfl

/-- A row of the entities' table has its key, which tells it from other rows. -/
theorem NodeOf.keyAt?_of_mem (h : d.NodeOf r j n path type m) (htables : tables.Sound r)
    {x : List TableRow} (hx : rowAt x m ∈ entityRows r path type tables) :
    RowGroup.keyAt? n (d.rowOf x) = some (rowKey r path type (rowAt x m)) := by
  refine keyAt?_rowOf h.isOf h.placed h.label fun c hc => ?_
  have hrank := htables.keyed path type _ hx c hc
  cases c <;> first | rfl | exact absurd rfl hrank

/-- The row of nulls is no entity. -/
theorem NodeOf.absent_not_mem (h : d.NodeOf r j n path type m) (htables : tables.Sound r) :
    TableRow.absent ∉ entityRows r path type tables := by
  intro habsent
  obtain ⟨c, hc⟩ := List.exists_mem_of_ne_nil _ (rowKey_ne_nil h.isOf .absent)
  refine htables.keyed path type _ habsent c hc ?_
  obtain ⟨key, -, rfl⟩ := List.mem_map.1 hc
  rfl

/-- Nulls come before the key of every entity. -/
theorem NodeOf.absent_before (h : d.NodeOf r j n path type m) (htables : tables.Sound r)
    {b : TableRow} (hb : b ∈ entityRows r path type tables) :
    KeyBefore (rowKey r path type .absent) (rowKey r path type b) := by
  obtain ⟨first, rest, hkeys, -⟩ := h.isOf.table
  have hrank := htables.keyed path type b hb (b first.column) (by simp [rowKey, hkeys])
  have hfirst : Cell.sortOrder .null (b first.column) = .lt := by
    have hlt : Ord.compare 0 (b first.column).rank = .lt :=
      Nat.compare_eq_lt.2 (Nat.pos_of_ne_zero hrank)
    simp only [Cell.sortOrder, compareLex, compareOn, Cell.rank] at hlt ⊢
    rw [hlt]
    rfl
  rw [rowKey, rowKey, hkeys, List.map_cons, List.map_cons, KeyBefore, List.compareLex_cons_cons]
  change (Cell.sortOrder .null (b first.column)).then _ = .lt
  rw [hfirst]
  rfl

variable (hnode : d.NodeOf r j n path type m) (htables : tables.Sound r)
  (htable : ∀ b, related b → b ∈ entityRows r path type tables)
  (hrows : ∀ x ∈ d.chosen rules tables, P x → related (rowAt x m) ∨ rowAt x m = .absent)

include hnode htables htable hrows

/-- A list has the key of a related row if it has the row. -/
theorem keyAt?_eq_some_iff {x : List TableRow} (hx : x ∈ d.chosen rules tables) (hP : P x)
    {b : TableRow} (hb : related b) :
    RowGroup.keyAt? n (d.rowOf x) = some (rowKey r path type b) ↔ rowAt x m = b := by
  constructor
  · intro hkey
    rcases hrows x hx hP with hrelated | habsent
    · rw [hnode.keyAt?_of_mem htables (htable _ hrelated), Option.some.injEq] at hkey
      refine htables.unique path type _ (htable _ hrelated) b (htable b hb) ?_
      rw [hkey]
      exact Std.ReflCmp.compare_self
    · rw [keyAt?_absent hnode.isOf hnode.placed hnode.label habsent] at hkey
      cases hkey
  · rintro rfl
    exact hnode.keyAt?_of_mem htables (htable _ hb)

/-- Taking a group apart gives one group for each related row, in ascending order of their keys. -/
theorem entities_groupWith
    (hexists : ∀ b, related b → ∃ x ∈ d.chosen rules tables, P x ∧ rowAt x m = b)
    (hearlier : ∀ x ∈ d.chosen rules tables, P x → ∀ b, related b → related (rowAt x m) →
      KeyBefore (rowKey r path type b) (rowKey r path type (rowAt x m)) →
        ∃ y ∈ d.chosen rules tables, P y ∧ rowAt y m = b ∧
          KeyBefore (d.statement.sortKeys rules y) (d.statement.sortKeys rules x)) :
    ∃ bs : List TableRow, (∀ b, b ∈ bs ↔ related b) ∧
      bs.Pairwise (fun a b => KeyBefore (rowKey r path type a) (rowKey r path type b)) ∧
      (d.groupWith rules tables j P).entities =
        bs.map fun b => d.groupWith rules tables j fun x => P x ∧ rowAt x m = b := by
  let key? : List TableRow → Option (List Cell) := fun x => RowGroup.keyAt? n (d.rowOf x)
  have hkey {x : List TableRow} (hx : x ∈ d.chosen rules tables) (hP : P x) {k : List Cell}
      (hk : key? x = some k) : related (rowAt x m) ∧ k = rowKey r path type (rowAt x m) := by
    rcases hrows x hx hP with hrelated | habsent
    · refine ⟨hrelated, ?_⟩
      have hsame : key? x = some (rowKey r path type (rowAt x m)) :=
        hnode.keyAt?_of_mem htables (htable _ hrelated)
      exact Option.some.inj (hk.symm.trans hsame)
    · have hnone : key? x = none :=
        keyAt?_absent hnode.isOf hnode.placed hnode.label habsent
      rw [hnone] at hk
      cases hk
  have hlists : (d.chosenWith rules tables P).filterMap key? =
      ((d.chosenWith rules tables P).map d.rowOf).filterMap (RowGroup.keyAt? n) := by
    rw [List.filterMap_map]
    rfl
  -- the keys that are seen are those of related rows, each of them once and in order
  have hseen : ∀ k ∈ firstSeen ((d.chosenWith rules tables P).filterMap key?),
      ∃ b, related b ∧ rowKey r path type b = k := by
    intro k hk
    obtain ⟨x, hx, hxk⟩ := List.mem_filterMap.1 (mem_firstSeen.1 hk)
    obtain ⟨hx, hP⟩ := mem_chosenWith.1 hx
    obtain ⟨hrelated, rfl⟩ := hkey hx hP hxk
    exact ⟨_, hrelated, rfl⟩
  obtain ⟨bs, hbs, hmap⟩ := exists_map_eq hseen
  have hsorted : (firstSeen ((d.chosenWith rules tables P).filterMap key?)).Pairwise KeyBefore := by
    have hcmp := transCmp_on (List.compareLex Cell.sortOrder) (d.statement.sortKeys rules)
    refine firstSeen_pairwise (fun x y => List.compareLex Cell.sortOrder
      (d.statement.sortKeys rules x) (d.statement.sortKeys rules y)) pairwise_chosenWith ?_ ?_
    · intro x hx y hy a b ha hb hne
      obtain ⟨hx, hPx⟩ := mem_chosenWith.1 hx
      obtain ⟨hy, hPy⟩ := mem_chosenWith.1 hy
      obtain ⟨hrelated, rfl⟩ := hkey hx hPx ha
      obtain ⟨hrelated', rfl⟩ := hkey hy hPy hb
      cases horder : List.compareLex Cell.sortOrder (rowKey r path type (rowAt x m))
        (rowKey r path type (rowAt y m)) with
      | lt => exact .inl horder
      | gt => exact .inr (Std.OrientedCmp.gt_iff_lt.1 horder)
      | eq =>
        have hsame := htables.unique path type _ (htable _ hrelated) _ (htable _ hrelated') horder
        exact absurd (by rw [hsame]) hne
    · intro x hx y hy a b ha hb hba
      obtain ⟨hx, hPx⟩ := mem_chosenWith.1 hx
      obtain ⟨hy, hPy⟩ := mem_chosenWith.1 hy
      obtain ⟨hrelated, rfl⟩ := hkey hx hPx ha
      obtain ⟨hrelated', rfl⟩ := hkey hy hPy hb
      obtain ⟨z, hz, hPz, hrow, hlt⟩ := hearlier x hx hPx _ hrelated' hrelated hba
      refine ⟨z, mem_chosenWith.2 ⟨hz, hPz⟩, ?_, hlt⟩
      rw [← hrow]
      exact hnode.keyAt?_of_mem htables (hrow ▸ htable _ hrelated')
  rw [← hmap, List.pairwise_map] at hsorted
  refine ⟨bs, fun b => ⟨hbs b, fun hb => ?_⟩, hsorted, ?_⟩
  · obtain ⟨x, hx, hP, rfl⟩ := hexists b hb
    have hseen : rowKey r path type (rowAt x m) ∈
        firstSeen ((d.chosenWith rules tables P).filterMap key?) :=
      mem_firstSeen.2 (List.mem_filterMap.2 ⟨x, mem_chosenWith.2 ⟨hx, hP⟩,
        hnode.keyAt?_of_mem htables (htable _ hb)⟩)
    rw [← hmap] at hseen
    obtain ⟨b', hb', hsame⟩ := List.mem_map.1 hseen
    have heq := htables.unique path type b' (htable _ (hbs b' hb')) _ (htable _ hb) (by
      rw [hsame]
      exact Std.ReflCmp.compare_self)
    exact heq ▸ hb'
  · rw [RowGroup.entities_eq, groupWith]
    simp only [RowGroup.key?, hnode.group_node]
    rw [← hlists, ← hmap, List.map_map]
    refine List.map_congr_left fun b hb => ?_
    rw [Function.comp_apply, filter_groupWith (Q := fun x => rowAt x m = b)]
    · rfl
    · intro x hx hP
      rw [decide_eq_true_eq]
      exact keyAt?_eq_some_iff hnode htables htable hrows hx hP (hbs b hb)

end Entities

/-- What a statement says of a child whose table is joined along hops: which rows the chosen lists
have of it and how they are ordered. The tables of the chain are numbered from `k` on. -/
structure Linked (rules : TextRules) (tables : Tables) (d : Draft) (r : TableRegistry) (j : Nat)
    (n : TableNode) (path : List String) (type : String) (hops : List Hop) (m k : Nat)
    (keep : TableRow → Prop) : Prop where
  sound : tables.Sound r
  node : d.NodeOf r j n path type (k + hops.length - 1)
  number : m < k
  nonempty : hops ≠ []
  table : ∃ hop, hops.getLast? = some hop ∧ n.table = hop.child.table
  lands : ∀ x ∈ d.chosen rules tables,
    Lands tables keep hops (rowAt x m) (rowAt x (k + hops.length - 1))
  exists_chosen : ∀ x ∈ d.chosen rules tables, ∀ c, Lands tables keep hops (rowAt x m) c →
    ∃ y ∈ d.chosen rules tables, y.take k = x.take k ∧ rowAt y (k + hops.length - 1) = c
  order : ∀ x y : List TableRow, y.take k = x.take k →
    KeyBefore (rowKey r path type (rowAt y (k + hops.length - 1)))
      (rowKey r path type (rowAt x (k + hops.length - 1))) →
        KeyBefore (d.statement.sortKeys rules y) (d.statement.sortKeys rules x)

theorem Chained.linked {i j m k : Nat} {n : TableNode} {path : List String} {type : String}
    {hops : List Hop} {conds : List Condition} {keep wanted : TableRow → Prop}
    (hchained : d.Chained i j hops conds m k) (hlaid : d.Laid r types)
    (htables : tables.Sound r) (hnode : d.NodeOf r j n path type (k + hops.length - 1))
    (hkeep : ∀ rows, (∀ c ∈ conds, c.eval rules (tagged rows) = some true) ↔
      keep (rowAt rows (k + hops.length - 1)))
    (hwanted : ∀ rows, (∀ c ∈ d.conditions, c.eval rules (tagged rows) = some true) ↔
      wanted (rowAt rows 0)) :
    Linked rules tables d r j n path type hops m k keep := by
  obtain ⟨hop, hlast, htable⟩ := hchained.table
  rw [node_eq hnode.node] at htable
  refine ⟨htables, hnode, hchained.parent.2.2, hchained.nonempty, ⟨hop, hlast, htable⟩,
    fun x hx => hchained.lands hkeep hx,
    fun x hx c hlands => hchained.exists_chosen hkeep hwanted hx hlands,
    fun x y htake hbefore => ?_⟩
  refine sortKeys_before hnode.node (fun l hl z hz => ?_) ?_
  · exact hchained.nodeKey_eq hlaid htake hl hz
  · rw [Sql.nodeKey_eq hnode.isOf hnode.placed hnode.label,
      Sql.nodeKey_eq hnode.isOf hnode.placed hnode.label]
    exact hbefore

/-- A group holds a row of a table: its lists have the row or, where left joins have not reached
it, nulls, and all of them have the row if the group is whole. The property of its lists is one of
the tables up to that one. -/
structure Holds (rules : TextRules) (tables : Tables) (d : Draft) (m : Nat)
    (P : List TableRow → Prop) (row : TableRow) (whole : Prop) : Prop where
  held : ∃ x ∈ d.chosen rules tables, P x ∧ rowAt x m = row
  rows : ∀ x ∈ d.chosen rules tables, P x → rowAt x m = row ∨ rowAt x m = .absent
  upTo : ∀ x y : List TableRow, x.take (m + 1) = y.take (m + 1) → P x → P y
  filled : whole → ∀ x ∈ d.chosen rules tables, P x → rowAt x m = row
  broken : ¬ whole → ∀ x, (d.chosenWith rules tables P).head? = some x → rowAt x m = .absent

/-- The first list of a group that holds a row. -/
theorem Holds.exists_first {m : Nat} {row : TableRow} {whole : Prop}
    (h : Holds rules tables d m P row whole) :
    ∃ x, (d.chosenWith rules tables P).head? = some x ∧ x ∈ d.chosen rules tables ∧ P x := by
  obtain ⟨x, hx, hP, -⟩ := h.held
  have hne : d.chosenWith rules tables P ≠ [] := List.ne_nil_of_mem (mem_chosenWith.2 ⟨hx, hP⟩)
  have hhead := List.head?_eq_some_head hne
  exact ⟨_, hhead, mem_chosenWith.1 (List.head_mem hne)⟩

/-- A column of a group that holds a row is that of the row, or null if the group is not whole. -/
theorem Holds.firstCell {i m place : Nat} {n : TableNode} {path : List String}
    {type name : String} {row : TableRow} {whole : Prop} (h : Holds rules tables d m P row whole)
    (hnode : d.NodeOf r i n path type m) (hname : n.column? name = some place) :
    (whole → (d.groupWith rules tables i P).firstCell place = row name) ∧
      (¬ whole → (d.groupWith rules tables i P).firstCell place = .null) := by
  obtain ⟨x, hhead, hx, hP⟩ := h.exists_first
  have hcell : (d.groupWith rules tables i P).firstCell place = rowAt x m name := by
    rw [RowGroup.firstCell, groupWith, List.head?_map, hhead, Option.map_some, Option.bind_some,
      (cell_of_column hnode.placed hnode.label x hname).1, Option.getD_some]
  rw [hcell]
  constructor
  · intro hwhole
    rw [h.filled hwhole x hx hP]
  · intro hbroken
    rw [h.broken hbroken x hhead]
    rfl

namespace Linked

variable {j m k : Nat} {n : TableNode} {path : List String} {type : String} {hops : List Hop}
  {keep : TableRow → Prop} {a b : TableRow} {whole : Prop}

/-- What is reached through the hops is an entity of the child's type. -/
theorem mem_of_reaches (hl : Linked rules tables d r j n path type hops m k keep)
    (h : Reaches tables hops a b) : b ∈ entityRows r path type tables := by
  obtain ⟨hop, hlast, htable⟩ := hl.table
  rw [hl.node.isOf.entityRows_eq, htable]
  exact h.mem hlast

/-- A list of a group that holds a row has a row of the child that is reached from it and kept,
or the row of nulls. -/
theorem cases (hl : Linked rules tables d r j n path type hops m k keep)
    (h : Holds rules tables d m P a whole) {x : List TableRow} (hx : x ∈ d.chosen rules tables)
    (hP : P x) :
    (Reaches tables hops a (rowAt x (k + hops.length - 1)) ∧
      keep (rowAt x (k + hops.length - 1)) ∧ rowAt x m = a) ∨
        rowAt x (k + hops.length - 1) = .absent := by
  have hlands := hl.lands x hx
  rcases h.rows x hx hP with hrow | habsent
  · rw [hrow] at hlands
    rcases hlands with ⟨hreaches, hkeep⟩ | ⟨habsent, -⟩
    · exact .inl ⟨hreaches, hkeep, hrow⟩
    · exact .inr habsent
  · rw [habsent, lands_absent hl.nonempty] at hlands
    exact .inr hlands

/-- Where the hops can land from the held row, a list of the group has that row. -/
theorem exists_list (hl : Linked rules tables d r j n path type hops m k keep)
    (h : Holds rules tables d m P a whole) {x : List TableRow} (hx : x ∈ d.chosen rules tables)
    (hP : P x) (hrow : rowAt x m = a) {c : TableRow} (hc : Lands tables keep hops a c) :
    ∃ y ∈ d.chosen rules tables, P y ∧ y.take k = x.take k ∧
      rowAt y (k + hops.length - 1) = c := by
  rw [← hrow] at hc
  obtain ⟨y, hy, htake, hrow⟩ := hl.exists_chosen x hx c hc
  have hnumber := hl.number
  have hshort : x.take (m + 1) = y.take (m + 1) := by
    have hcut := congrArg (List.take (m + 1)) htake
    rw [List.take_take, List.take_take, Nat.min_eq_left (by omega)] at hcut
    exact hcut.symm
  exact ⟨y, hy, h.upTo x y hshort hP, htake, hrow⟩

/-- The lists of a group with a property of the child's row make a property of more tables. -/
private theorem upTo (hl : Linked rules tables d r j n path type hops m k keep)
    (h : Holds rules tables d m P a whole) {x y : List TableRow}
    (htake : x.take (k + hops.length - 1 + 1) = y.take (k + hops.length - 1 + 1)) :
    (P x → P y) ∧ rowAt x (k + hops.length - 1) = rowAt y (k + hops.length - 1) := by
  have hnumber := hl.number
  have hpos := List.length_pos_of_ne_nil hl.nonempty
  refine ⟨h.upTo x y ?_, rowAt_of_take htake (Nat.lt_succ_self _)⟩
  have hcut := congrArg (List.take (m + 1)) htake
  rwa [List.take_take, List.take_take, Nat.min_eq_left (by omega)] at hcut

/-- The lists of a group with one row of the child hold that row. -/
theorem holds_row (hl : Linked rules tables d r j n path type hops m k keep)
    (h : Holds rules tables d m P a whole) (hreaches : Reaches tables hops a b) (hkeep : keep b) :
    Holds rules tables d (k + hops.length - 1)
      (fun x => P x ∧ rowAt x (k + hops.length - 1) = b) b True := by
  obtain ⟨x, hx, hP, hrow⟩ := h.held
  obtain ⟨y, hy, hPy, -, hb⟩ := hl.exists_list h hx hP hrow (.inl ⟨hreaches, hkeep⟩)
  refine ⟨⟨y, hy, ⟨hPy, hb⟩, hb⟩, fun z _ hz => .inl hz.2, fun z z' htake hz => ?_,
    fun _ z _ hz => hz.2, fun hbroken => absurd trivial hbroken⟩
  obtain ⟨hmono, hsame⟩ := hl.upTo h htake
  exact ⟨hmono hz.1, hsame.symm.trans hz.2⟩

/-- Taking a group apart at a child gives a group for each row that is reached and kept. -/
theorem entities_eq (hl : Linked rules tables d r j n path type hops m k keep)
    (h : Holds rules tables d m P a whole) :
    ∃ bs : List TableRow, (∀ b, b ∈ bs ↔ Reaches tables hops a b ∧ keep b) ∧
      bs.Pairwise (fun a b => KeyBefore (rowKey r path type a) (rowKey r path type b)) ∧
      (d.groupWith rules tables j P).entities = bs.map fun b =>
        d.groupWith rules tables j fun x => P x ∧ rowAt x (k + hops.length - 1) = b := by
  refine entities_groupWith hl.node hl.sound (fun b hb => hl.mem_of_reaches hb.1)
    (fun x hx hP => ?_) (fun b hb => ?_) (fun x hx hP b hb hrelated hbefore => ?_)
  · exact (hl.cases h hx hP).imp (fun hc => ⟨hc.1, hc.2.1⟩) id
  · obtain ⟨x, hx, hP, hrow⟩ := h.held
    obtain ⟨y, hy, hPy, -, hy'⟩ := hl.exists_list h hx hP hrow (.inl hb)
    exact ⟨y, hy, hPy, hy'⟩
  · rcases hl.cases h hx hP with ⟨-, -, hrow⟩ | habsent
    · obtain ⟨y, hy, hPy, htake, rfl⟩ := hl.exists_list h hx hP hrow (.inl hb)
      exact ⟨y, hy, hPy, rfl, hl.order x y htake hbefore⟩
    · rw [habsent] at hrelated
      exact absurd (hl.mem_of_reaches hrelated.1) (hl.node.absent_not_mem hl.sound)

/-- The rows of a group in which a child is present are those with the one row that is reached and
kept. -/
theorem present_eq (hl : Linked rules tables d r j n path type hops m k keep)
    (h : Holds rules tables d m P a whole) (hreaches : Reaches tables hops a b)
    (honly : ∀ c, Reaches tables hops a c → c = b) :
    (d.groupWith rules tables j P).present = d.groupWith rules tables j fun x =>
      P x ∧ rowAt x (k + hops.length - 1) = b := by
  rw [RowGroup.present, groupWith]
  simp only [RowGroup.key?, hl.node.group_node]
  rw [filter_groupWith (Q := fun x => rowAt x (k + hops.length - 1) = b)]
  · rfl
  · intro x hx hP
    rcases hl.cases h hx hP with ⟨hrelated, -, -⟩ | habsent
    · rw [hl.node.keyAt?_of_mem hl.sound (hl.mem_of_reaches hrelated)]
      simp [honly _ hrelated]
    · rw [keyAt?_absent hl.node.isOf hl.node.placed hl.node.label habsent, habsent]
      have hne : TableRow.absent ≠ b := fun heq =>
        hl.node.absent_not_mem hl.sound (heq ▸ hl.mem_of_reaches hreaches)
      simp [hne]

/-- No row of a group has a child if no row is reached and kept. -/
theorem present_eq_nil (hl : Linked rules tables d r j n path type hops m k keep)
    (h : Holds rules tables d m P a whole) (hnone : ∀ b, ¬ (Reaches tables hops a b ∧ keep b)) :
    (d.groupWith rules tables j P).present.rows = [] := by
  rw [RowGroup.present, groupWith]
  simp only [RowGroup.key?, hl.node.group_node]
  rw [List.filter_eq_nil_iff]
  intro row hrow
  obtain ⟨x, hx, rfl⟩ := List.mem_map.1 hrow
  obtain ⟨hx, hP⟩ := mem_chosenWith.1 hx
  rcases hl.cases h hx hP with ⟨hrelated, hkeep, -⟩ | habsent
  · exact absurd ⟨hrelated, hkeep⟩ (hnone _)
  · rw [keyAt?_absent hl.node.isOf hl.node.placed hl.node.label habsent]
    simp

/-- A group holds the row of nulls of a child if no row is reached and kept. -/
theorem holds_absent (hl : Linked rules tables d r j n path type hops m k keep)
    (h : Holds rules tables d m P a whole) (hnone : ∀ b, ¬ (Reaches tables hops a b ∧ keep b)) :
    Holds rules tables d (k + hops.length - 1) P .absent True := by
  have hall : ∀ x ∈ d.chosen rules tables, P x → rowAt x (k + hops.length - 1) = .absent := by
    intro x hx hP
    rcases hl.cases h hx hP with ⟨hrelated, hkeep, -⟩ | habsent
    · exact absurd ⟨hrelated, hkeep⟩ (hnone _)
    · exact habsent
  obtain ⟨x, hx, hP, -⟩ := h.held
  exact ⟨⟨x, hx, hP, hall x hx hP⟩, fun z hz hPz => .inl (hall z hz hPz),
    fun z z' htake => (hl.upTo h htake).1, fun _ => hall, fun hbroken => absurd trivial hbroken⟩

/-- A group holds the one row of a child that is reached and kept; it is whole unless it was not
before or a way through the hops breaks off. -/
theorem holds_only (hl : Linked rules tables d r j n path type hops m k keep)
    (h : Holds rules tables d m P a whole) (hreaches : Reaches tables hops a b) (hkeep : keep b)
    (honly : ∀ c, Reaches tables hops a c → c = b) :
    Holds rules tables d (k + hops.length - 1) P b (whole ∧ ¬ BreaksOff tables keep hops a) := by
  obtain ⟨x, hx, hP, hrow⟩ := h.held
  obtain ⟨y, hy, hPy, -, hb⟩ := hl.exists_list h hx hP hrow (.inl ⟨hreaches, hkeep⟩)
  constructor
  case held => exact ⟨y, hy, hPy, hb⟩
  case rows =>
    intro z hz hPz
    exact (hl.cases h hz hPz).imp (fun hc => honly _ hc.1) id
  case upTo => exact fun z z' htake => (hl.upTo h htake).1
  case filled =>
    intro ⟨hwhole, hunbroken⟩ z hz hPz
    have hlands := hl.lands z hz
    rw [h.filled hwhole z hz hPz] at hlands
    rcases hlands with ⟨hrelated, -⟩ | ⟨-, hbreaks⟩
    · exact honly _ hrelated
    · exact absurd hbreaks hunbroken
  case broken =>
    intro hbroken z hhead
    obtain ⟨hz, hPz⟩ := mem_chosenWith.1 (List.mem_of_head? hhead)
    rcases hl.cases h hz hPz with ⟨hrelated, -, hza⟩ | habsent
    · by_cases hwhole : whole
      · have hbreaks : BreaksOff tables keep hops a := by
          by_contra hunbroken
          exact hbroken ⟨hwhole, hunbroken⟩
        -- a list in which the way breaks off comes before the first one
        obtain ⟨w, hw, hPw, htake, hwrow⟩ := hl.exists_list h hz hPz hza (.inr ⟨rfl, hbreaks⟩)
        refine absurd (hl.order z w htake ?_) (not_before_first hhead hw hPw)
        rw [hwrow]
        exact hl.node.absent_before hl.sound (hl.mem_of_reaches hrelated)
      · have hrow := h.broken hwhole z hhead
        have hlands := hl.lands z hz
        rwa [hrow, lands_absent hl.nonempty] at hlands
    · exact habsent

end Linked

end Draft

end MappedQuery.Sql
