import Mathlib.Data.List.Forall2
import MappedQuery.Proofs.Sequencing

/-!
# What planning does to a draft

Planning only adds to a draft. A node keeps its label, its table and its keys, and gains columns
and children; a column keeps its place. `Draft.Grows` says so of every step, and `Draft.Keeps` of
all steps but the pushing of conditions, which leave the joins and conditions that are there as
they are. Each step of planning has one lemma that says what it adds.
-/
namespace MappedQuery.Sql

namespace TableNode

/-- A node has become another by gaining columns and children. -/
structure Grown (n n' : TableNode) : Prop where
  label : n'.label = n.label
  table : n'.table = n.table
  columns : n.columns <+: n'.columns
  children : n.children <+: n'.children

theorem Grown.refl (n : TableNode) : n.Grown n :=
  ⟨rfl, rfl, List.prefix_refl _, List.prefix_refl _⟩

theorem Grown.trans {n n' n'' : TableNode} (h : n.Grown n') (h' : n'.Grown n'') : n.Grown n'' :=
  ⟨h'.label.trans h.label, h'.table.trans h.table, h.columns.trans h'.columns,
    h.children.trans h'.children⟩

private theorem find?_of_isPrefix {l l' : List (String × Nat)} (h : l <+: l') {name : String}
    {i : Nat} (hi : (l.find? (·.1 = name)).map (·.2) = some i) :
    (l'.find? (·.1 = name)).map (·.2) = some i := by
  obtain ⟨rest, rfl⟩ := h
  rw [List.find?_append]
  cases hfound : l.find? (·.1 = name) with
  | none => simp [hfound] at hi
  | some x => simpa [hfound] using hi

theorem Grown.column? {n n' : TableNode} (h : n.Grown n') {name : String} {place : Nat}
    (hplace : n.column? name = some place) : n'.column? name = some place :=
  find?_of_isPrefix h.columns hplace

theorem Grown.child? {n n' : TableNode} (h : n.Grown n') {field : String} {child : Nat}
    (hchild : n.child? field = some child) : n'.child? field = some child :=
  find?_of_isPrefix h.children hchild

/-- The node with a column at a place. -/
def addColumn (n : TableNode) (name : String) (place : Nat) : TableNode :=
  { n with columns := n.columns ++ [(name, place)] }

/-- The node with an object field. -/
def addChild (n : TableNode) (field : String) (child : Nat) : TableNode :=
  { n with children := n.children ++ [(field, child)] }

theorem column?_addColumn {n : TableNode} {name : String} (place : Nat)
    (h : n.column? name = none) : (n.addColumn name place).column? name = some place := by
  have hnone : n.columns.find? (·.1 = name) = none := Option.map_eq_none_iff.1 h
  simp [column?, addColumn, List.find?_append, hnone]

theorem child?_addChild {n : TableNode} {field : String} (child : Nat)
    (h : n.child? field = none) : (n.addChild field child).child? field = some child := by
  have hnone : n.children.find? (·.1 = field) = none := Option.map_eq_none_iff.1 h
  simp [child?, addChild, List.find?_append, hnone]

theorem child?_addChild_of_ne {n : TableNode} {field other : String} (child : Nat)
    (h : other ≠ field) : (n.addChild field child).child? other = n.child? other := by
  simp [child?, addChild, List.find?_append, h.symm]

theorem grown_addColumn (n : TableNode) (name : String) (place : Nat) :
    n.Grown (n.addColumn name place) :=
  ⟨rfl, rfl, List.prefix_append _ _, List.prefix_refl _⟩

theorem grown_addChild (n : TableNode) (field : String) (child : Nat) :
    n.Grown (n.addChild field child) :=
  ⟨rfl, rfl, List.prefix_refl _, List.prefix_append _ _⟩

end TableNode

namespace Draft

/-- A draft has become another by gaining nodes and columns. -/
structure Grows (d d' : Draft) : Prop where
  nodes : ∀ (i : Nat) (n : TableNode), d.nodes[i]? = some n →
    ∃ n', d'.nodes[i]? = some n' ∧ n.Grown n' ∧ n'.keys = n.keys
  columns : d.columns <+: d'.columns

theorem Grows.refl (d : Draft) : d.Grows d :=
  ⟨fun _ n hn => ⟨n, hn, .refl n, rfl⟩, List.prefix_refl _⟩

theorem Grows.trans {d d' d'' : Draft} (h : d.Grows d') (h' : d'.Grows d'') : d.Grows d'' := by
  refine ⟨fun i n hn => ?_, h.columns.trans h'.columns⟩
  obtain ⟨n', hn', hg, hkeys⟩ := h.nodes i n hn
  obtain ⟨n'', hn'', hg', hkeys'⟩ := h'.nodes i n' hn'
  exact ⟨n'', hn'', hg.trans hg', hkeys'.trans hkeys⟩

/-- The draft has grown, and joins, conditions and the keys of its nodes are still there as they
were. -/
structure Keeps (d d' : Draft) : Prop where
  nodes : ∀ (i : Nat) (n : TableNode), d.nodes[i]? = some n →
    ∃ n', d'.nodes[i]? = some n' ∧ n.Grown n' ∧ n'.keys = n.keys ∧ n'.filtered = n.filtered
  columns : d.columns <+: d'.columns
  joins : d.joins <+: d'.joins
  conditions : d'.conditions = d.conditions

theorem Keeps.refl (d : Draft) : d.Keeps d :=
  ⟨fun _ n hn => ⟨n, hn, .refl n, rfl, rfl⟩, List.prefix_refl _, List.prefix_refl _, rfl⟩

theorem Keeps.trans {d d' d'' : Draft} (h : d.Keeps d') (h' : d'.Keeps d'') : d.Keeps d'' := by
  refine ⟨fun i n hn => ?_, h.columns.trans h'.columns, h.joins.trans h'.joins,
    h'.conditions.trans h.conditions⟩
  obtain ⟨n', hn', hg, hkeys, hfiltered⟩ := h.nodes i n hn
  obtain ⟨n'', hn'', hg', hkeys', hfiltered'⟩ := h'.nodes i n' hn'
  exact ⟨n'', hn'', hg.trans hg', hkeys'.trans hkeys, hfiltered'.trans hfiltered⟩

theorem Keeps.grows {d d' : Draft} (h : d.Keeps d') : d.Grows d' := by
  refine ⟨fun i n hn => ?_, h.columns⟩
  obtain ⟨n', hn', hg, hkeys, -⟩ := h.nodes i n hn
  exact ⟨n', hn', hg, hkeys⟩

theorem node_eq {d : Draft} {i : Nat} {n : TableNode} (h : d.nodes[i]? = some n) :
    d.node i = n := by
  rw [node, List.getD_eq_getElem?_getD, h]
  rfl

theorem modify_length {α : Type} (f : α → α) (as : List α) (a : α) :
    (as ++ [a]).modify as.length f = as ++ [f a] := by
  induction as with
  | nil => rfl
  | cons b as ih => simp [ih]

theorem updateNode_nodes (d : Draft) (i : Nat) (f : TableNode → TableNode) (j : Nat) :
    (d.updateNode i f).nodes[j]? = if i = j then f <$> d.nodes[j]? else d.nodes[j]? := by
  rw [updateNode, List.getElem?_modify]
  split <;> simp

/-- A change of one node that makes it grow keeps the draft. -/
theorem keeps_updateNode {d : Draft} {i : Nat} {f : TableNode → TableNode}
    (h : ∀ n, d.nodes[i]? = some n →
      n.Grown (f n) ∧ (f n).keys = n.keys ∧ (f n).filtered = n.filtered) :
    d.Keeps (d.updateNode i f) := by
  refine ⟨fun j n hn => ?_, List.prefix_refl _, List.prefix_refl _, rfl⟩
  rw [updateNode_nodes]
  by_cases hij : i = j
  · subst hij
    rw [if_pos rfl, hn]
    exact ⟨f n, rfl, h n hn⟩
  · rw [if_neg hij]
    exact ⟨n, hn, .refl n, rfl, rfl⟩

/-- The draft with one more column, which belongs to a node. -/
def addColumn (d : Draft) (i : Nat) (name : String) : Draft :=
  updateNode { d with columns := d.columns ++ [⟨some ⟨(d.node i).label, none⟩, name⟩] } i
    fun n => n.addColumn name d.columns.length

theorem keeps_addColumn (d : Draft) (i : Nat) (name : String) : d.Keeps (d.addColumn i name) := by
  have hcolumns :
      d.Keeps { d with columns := d.columns ++ [⟨some ⟨(d.node i).label, none⟩, name⟩] } :=
    ⟨fun _ n hn => ⟨n, hn, .refl n, rfl, rfl⟩, List.prefix_append _ _, List.prefix_refl _, rfl⟩
  exact hcolumns.trans (keeps_updateNode fun n _ => ⟨n.grown_addColumn _ _, rfl, rfl⟩)

/-- The nodes of a draft with one more column are those that there were, one of them with the
column. -/
theorem addColumn_nodes {d : Draft} {i : Nat} {name : String} {l : Nat} {n' : TableNode}
    (h : (d.addColumn i name).nodes[l]? = some n') :
    ∃ n, d.nodes[l]? = some n ∧ (n' = n ∨ i = l ∧ n' = n.addColumn name d.columns.length) := by
  rw [addColumn, updateNode_nodes] at h
  split at h
  · rename_i hil
    obtain ⟨n, hn, rfl⟩ := Option.map_eq_some_iff.1 h
    exact ⟨n, hn, .inr ⟨hil, rfl⟩⟩
  · exact ⟨n', h, .inl rfl⟩

end Draft

/-- The columns of a node stand among the columns of a statement under the node's label. -/
def TableNode.Placed (n : TableNode) (columns : List Column) : Prop :=
  ∀ name place, n.column? name = some place →
    columns[place]? = some ⟨some ⟨n.label, none⟩, name⟩

theorem TableNode.Placed.mono {n : TableNode} {columns columns' : List Column}
    (h : n.Placed columns) (hextends : columns <+: columns') : n.Placed columns' := by
  intro name place hplace
  obtain ⟨rest, rfl⟩ := hextends
  have hold := h name place hplace
  rw [List.getElem?_append_left (List.getElem?_eq_some_iff.1 hold).1]
  exact hold

theorem TableNode.placed_addColumn {n : TableNode} {columns : List Column} {name : String}
    (h : n.Placed columns) :
    (n.addColumn name columns.length).Placed
      (columns ++ [⟨some ⟨n.label, none⟩, name⟩]) := by
  intro other place hplace
  cases hother : n.column? other with
  | some place' =>
    have hsame := (n.grown_addColumn name columns.length).column? hother
    rw [hsame] at hplace
    cases hplace
    exact h.mono (List.prefix_append _ _) other place hother
  | none =>
    have hnone : n.columns.find? (·.1 = other) = none := Option.map_eq_none_iff.1 hother
    simp only [column?, addColumn, List.find?_append, hnone, Option.none_or] at hplace
    by_cases hname : name = other
    · subst hname
      simp at hplace
      subst hplace
      simp [addColumn]
    · simp [hname] at hplace

/-- A column of a statement is that of a node, and is found there. -/
def TableNode.Owns (n : TableNode) (place : Nat) (c : Column) : Prop :=
  c.table? = some ⟨n.label, none⟩ ∧ n.column? c.name = some place

theorem TableNode.Owns.mono {n n' : TableNode} {place : Nat} {c : Column} (h : n.Owns place c)
    (hgrown : n.Grown n') : n'.Owns place c :=
  ⟨hgrown.label ▸ h.1, hgrown.column? h.2⟩

/-- A new column of a node is its own, and all others keep their owners. -/
theorem TableNode.owns_addColumn {n : TableNode} {columns : List Column} {name : String}
    (hnone : n.column? name = none) {start k : Nat} {c : Column} (hk : start ≤ k)
    (howned : ∀ k c, start ≤ k → columns[k]? = some c → n.Owns k c)
    (hc : (columns ++ [⟨some ⟨n.label, none⟩, name⟩])[k]? = some c) :
    (n.addColumn name columns.length).Owns k c := by
  rcases Nat.lt_or_ge k columns.length with hlt | hge
  · rw [List.getElem?_append_left hlt] at hc
    exact (howned k c hk hc).mono (n.grown_addColumn _ _)
  · rw [List.getElem?_append_right hge, List.getElem?_singleton] at hc
    split at hc
    · obtain rfl : k = columns.length := by omega
      cases hc
      exact ⟨rfl, column?_addColumn _ hnone⟩
    · cases hc

theorem TableNode.names_addColumn {n : TableNode} {name : String} (place : Nat)
    (hnone : n.column? name = none) (h : (n.columns.map (·.1)).Nodup) :
    ((n.addColumn name place).columns.map (·.1)).Nodup := by
  have hfresh : ∀ x ∈ n.columns, x.1 ≠ name := by
    intro x hx heq
    have hnot := List.find?_eq_none.1 (Option.map_eq_none_iff.1 hnone) x hx
    exact hnot (decide_eq_true heq)
  rw [addColumn, List.map_append, List.nodup_append]
  refine ⟨h, List.pairwise_singleton _ _, fun other hother y hy heq => ?_⟩
  obtain ⟨x, hx, rfl⟩ := List.mem_map.1 hother
  exact hfresh x hx (heq.trans (List.mem_singleton.1 hy))

namespace Planning

variable {r : TableRegistry} {d d' : Draft}

theorem ends_nextLabel {label : String} :
    Ends nextLabel d label d' ↔
      label = "t" ++ toString d.labels ∧ d' = { d with labels := d.labels + 1 } := by
  simp only [nextLabel, ends_bind, ends_get, ends_set, ends_pure]
  constructor
  · rintro ⟨_, _, ⟨rfl, rfl⟩, _, _, rfl, rfl, rfl⟩
    exact ⟨rfl, rfl⟩
  · rintro ⟨rfl, rfl⟩
    exact ⟨_, _, ⟨rfl, rfl⟩, ⟨⟩, _, rfl, rfl, rfl⟩

/-- A column is selected if it belongs to the node's table, at most once. -/
theorem ends_ownColumn {i place : Nat} {field : String} {column : ColumnRef} :
    Ends (ownColumn i field column) d place d' ↔
      column.table = (d.node i).table ∧
        ((d.node i).column? column.column = some place ∧ d' = d ∨
          (d.node i).column? column.column = none ∧ place = d.columns.length ∧
            d' = d.addColumn i column.column) := by
  unfold ownColumn
  simp only [ends_bind, ends_get]
  constructor
  · rintro ⟨_, _, ⟨rfl, rfl⟩, h⟩
    split at h
    · exact absurd h not_ends_throw
    · rename_i htable
      refine ⟨not_not.1 htable, ?_⟩
      split at h
      · rename_i hplace
        obtain ⟨rfl, rfl⟩ := ends_pure.1 h
        exact .inl ⟨hplace, rfl⟩
      · rename_i hnone
        obtain ⟨_, _, hset, hpure⟩ := ends_bind.1 h
        obtain ⟨rfl, rfl⟩ := ends_pure.1 hpure
        exact .inr ⟨hnone, rfl, (ends_set.1 hset).symm⟩
  · rintro ⟨htable, h⟩
    refine ⟨_, _, ⟨rfl, rfl⟩, ?_⟩
    rw [if_neg (not_not.2 htable)]
    rcases h with ⟨hplace, rfl⟩ | ⟨hnone, rfl, rfl⟩
    · rw [hplace]
      exact ends_pure.2 ⟨rfl, rfl⟩
    · rw [hnone]
      exact ends_bind.2 ⟨⟨⟩, _, ends_set.2 rfl, ends_pure.2 ⟨rfl, rfl⟩⟩

theorem keeps_ownColumn {i place : Nat} {field : String} {column : ColumnRef}
    (h : Ends (ownColumn i field column) d place d') : d.Keeps d' := by
  rcases (ends_ownColumn.1 h).2 with ⟨-, rfl⟩ | ⟨-, -, rfl⟩
  · exact .refl d'
  · exact d.keeps_addColumn i column.column

/-- After a column was selected it has a place. -/
theorem column?_ownColumn {i place : Nat} {field : String} {column : ColumnRef} {n : TableNode}
    (hn : d.nodes[i]? = some n) (h : Ends (ownColumn i field column) d place d') :
    ∃ n', d'.nodes[i]? = some n' ∧ n'.column? column.column = some place := by
  rcases (ends_ownColumn.1 h).2 with ⟨hplace, rfl⟩ | ⟨hnone, rfl, rfl⟩
  · rw [Draft.node_eq hn] at hplace
    exact ⟨n, hn, hplace⟩
  · rw [Draft.node_eq hn] at hnone
    refine ⟨n.addColumn column.column d.columns.length, ?_, TableNode.column?_addColumn _ hnone⟩
    rw [Draft.addColumn, Draft.updateNode_nodes, if_pos rfl]
    exact congrArg (Option.map _) hn

end Planning

namespace Draft

variable {d d' : Draft}

/-- The draft with a condition pushed to a target of a node. -/
def push (node : Nat) (target : Target) (d : Draft) (c : Condition) : Draft :=
  match target with
  | .condition => { d with conditions := d.conditions ++ [c] }
  | .join index =>
    updateNode { d with joins := d.joins.modify index fun j => { j with on := j.on.conjoin c } }
      node fun n => { n with filtered := true }

/-- The nodes of a draft with a condition pushed are those that there were, one of them filtered. -/
theorem push_nodes {node : Nat} {target : Target} {c : Condition} {i : Nat} {n' : TableNode}
    (hn' : (d.push node target c).nodes[i]? = some n') :
    ∃ n, d.nodes[i]? = some n ∧ n.Grown n' ∧ n'.keys = n.keys ∧ n'.columns = n.columns ∧
      n'.children = n.children := by
  cases target with
  | condition => exact ⟨n', hn', .refl n', rfl, rfl, rfl⟩
  | join index =>
    rw [push, updateNode_nodes] at hn'
    split at hn'
    · obtain ⟨n, hn, rfl⟩ := Option.map_eq_some_iff.1 hn'
      exact ⟨n, hn, ⟨rfl, rfl, List.prefix_refl _, List.prefix_refl _⟩, rfl, rfl, rfl⟩
    · exact ⟨n', hn', .refl n', rfl, rfl, rfl⟩

/-- The joins of a draft with a condition pushed to one of them. -/
theorem push_joins {node index : Nat} {c : Condition} {l : Nat} {j : Join}
    (hj : (d.push node (.join index) c).joins[l]? = some j) :
    ∃ j', d.joins[l]? = some j' ∧ j.table = j'.table ∧
      (j.on = j'.on ∨ index = l ∧ j.on = j'.on.conjoin c) := by
  change (d.joins.modify index _)[l]? = some j at hj
  rw [List.getElem?_modify] at hj
  obtain ⟨j', hj', rfl⟩ := Option.map_eq_some_iff.1 hj
  refine ⟨j', hj', ?_⟩
  by_cases hl : index = l
  · rw [if_pos hl]
    exact ⟨rfl, .inr ⟨hl, rfl⟩⟩
  · rw [if_neg hl]
    exact ⟨rfl, .inl rfl⟩

theorem push_length (d : Draft) (node : Nat) (target : Target) (c : Condition) :
    (d.push node target c).nodes.length = d.nodes.length := by
  cases target with
  | condition => rfl
  | join index => exact List.length_modify ..

theorem grows_push (d : Draft) (node : Nat) (target : Target) (c : Condition) :
    d.Grows (d.push node target c) := by
  cases target with
  | condition => exact ⟨fun _ n hn => ⟨n, hn, .refl n, rfl⟩, List.prefix_refl _⟩
  | join index =>
    refine ⟨fun i n hn => ?_, List.prefix_refl _⟩
    rw [push, updateNode_nodes]
    split
    · exact ⟨{ n with filtered := true }, by rw [hn]; rfl,
        ⟨rfl, rfl, List.prefix_refl _, List.prefix_refl _⟩, rfl⟩
    · exact ⟨n, hn, .refl n, rfl⟩

theorem ends_pushCondition {node : Nat} {target : Target} {c : Condition} {u : Unit} :
    Planning.Ends (Planning.pushCondition node target c) d u d' ↔ d.push node target c = d' := by
  cases target <;> exact Planning.ends_modify

end Draft

/-- Selecting the keys of a node, by which its rows are told apart. -/
def Planning.ownKeys (index : Nat) (type : String) (keys : List ColumnRef) : Planning PUnit :=
  keys.forM fun key => do
    let position ← ownColumn index type key
    modify fun d => d.updateNode index fun n => { n with keys := n.keys ++ [position] }

/-- A draft has become another by gaining one node and columns of it. -/
structure Draft.Gained (d : Draft) (label table : String) (d' : Draft) (n : TableNode) : Prop where
  nodes : d'.nodes = d.nodes ++ [n]
  label : n.label = label
  table : n.table = table
  children : n.children = []
  filtered : n.filtered = false
  columns : d.columns <+: d'.columns
  placed : n.Placed d'.columns
  joins : d'.joins = d.joins
  conditions : d'.conditions = d.conditions
  labels : d'.labels = d.labels
  names : (n.columns.map (·.1)).Nodup
  owned : ∀ (k : Nat) (c : Column), d.columns.length ≤ k → d'.columns[k]? = some c → n.Owns k c

/-- A node is that of a type: its table is that of the type's keys, which are selected, and so is
the discriminator of an abstract type. -/
structure TableNode.IsOf (n : TableNode) (r : TableRegistry) (path : List String)
    (type : String) : Prop where
  table : ∃ first rest, Planning.keyColumns r path type = first :: rest ∧ n.table = first.table
  keys : List.Forall₂ (fun key place => key.table = n.table ∧ n.column? key.column = some place)
    (Planning.keyColumns r path type) n.keys
  discriminator : r.schema.isAbstract type = true → ∃ column cases,
    r.sourceField? path type TableField.discriminatorName = some (.discriminator column cases) ∧
      (n.column? column.column).isSome = true

private theorem exists_of_forall₂ {α β : Type} {R : α → β → Prop} {as : List α} {bs : List β}
    (h : List.Forall₂ R as bs) : ∀ b ∈ bs, ∃ a ∈ as, R a b := by
  induction h with
  | nil => simp
  | cons hab _ ih =>
    intro b hb
    rcases List.mem_cons.1 hb with rfl | hb
    · exact ⟨_, List.mem_cons_self, hab⟩
    · obtain ⟨a, ha, h⟩ := ih b hb
      exact ⟨a, List.mem_cons_of_mem _ ha, h⟩

/-- A key is the place of a column of the node. -/
theorem TableNode.IsOf.key {n : TableNode} {r : TableRegistry} {path : List String} {type : String}
    (h : n.IsOf r path type) {place : Nat} (hplace : place ∈ n.keys) :
    ∃ key ∈ Planning.keyColumns r path type, key.table = n.table ∧
      n.column? key.column = some place :=
  exists_of_forall₂ h.keys place hplace

theorem TableNode.IsOf.keys_ne_nil {n : TableNode} {r : TableRegistry} {path : List String}
    {type : String} (h : n.IsOf r path type) : n.keys ≠ [] := by
  obtain ⟨first, rest, hkeys, -⟩ := h.table
  intro hnil
  have hall := h.keys
  rw [hkeys, hnil] at hall
  cases hall

namespace Draft.Gained

variable {d d' d'' : Draft} {label table : String} {n : TableNode}

theorem node_eq (h : d.Gained label table d' n) : d'.nodes[d.nodes.length]? = some n := by
  rw [h.nodes]
  simp

theorem keeps (h : d.Gained label table d' n) : d.Keeps d' := by
  refine ⟨fun i n' hn => ⟨n', ?_, .refl n', rfl, rfl⟩, h.columns, h.joins ▸ List.prefix_refl _,
    h.conditions⟩
  rw [h.nodes, List.getElem?_append_left (List.getElem?_eq_some_iff.1 hn).1]
  exact hn

/-- A change of the new node only. -/
theorem updateNode (h : d.Gained label table d' n) {f : TableNode → TableNode}
    (hlabel : (f n).label = label) (htable : (f n).table = table) (hchildren : (f n).children = [])
    (hfiltered : (f n).filtered = false) (hcolumns : (f n).columns = n.columns) :
    d.Gained label table (d'.updateNode d.nodes.length f) (f n) := by
  have hcolumn (name : String) : (f n).column? name = n.column? name := by
    rw [TableNode.column?, hcolumns, TableNode.column?]
  have hsame : (f n).label = n.label := hlabel.trans h.label.symm
  refine ⟨?_, hlabel, htable, hchildren, hfiltered, h.columns, fun name place hplace => ?_, h.joins,
    h.conditions, h.labels, hcolumns ▸ h.names, fun k c hk hc => ?_⟩
  · rw [Draft.updateNode, h.nodes]
    exact Draft.modify_length f d.nodes n
  · rw [hsame]
    exact h.placed name place (hcolumn name ▸ hplace)
  · obtain ⟨htable, hfound⟩ := h.owned k c hk hc
    exact ⟨hsame ▸ htable, (hcolumn c.name).trans hfound⟩

/-- The new node gains a column. -/
theorem ownColumn (h : d.Gained label table d' n) {field : String} {column : ColumnRef}
    {place : Nat}
    (hends : Planning.Ends (Planning.ownColumn d.nodes.length field column) d' place d'') :
    column.table = table ∧ ∃ n', d.Gained label table d'' n' ∧ n.Grown n' ∧ n'.keys = n.keys ∧
      n'.column? column.column = some place := by
  obtain ⟨htable, hcases⟩ := Planning.ends_ownColumn.1 hends
  rw [Draft.node_eq h.node_eq] at htable hcases
  refine ⟨htable.trans h.table, ?_⟩
  rcases hcases with ⟨hplace, rfl⟩ | ⟨hnone, rfl, rfl⟩
  · exact ⟨n, h, .refl n, rfl, hplace⟩
  · have hlabel : (d'.node d.nodes.length).label = n.label := by rw [Draft.node_eq h.node_eq]
    refine ⟨n.addColumn column.column d'.columns.length, ?_, n.grown_addColumn _ _, rfl,
      TableNode.column?_addColumn _ hnone⟩
    refine ⟨?_, h.label, h.table, h.children, h.filtered,
      h.columns.trans (List.prefix_append _ _), ?_, h.joins, h.conditions, h.labels,
      TableNode.names_addColumn _ hnone h.names, fun k c hk hc => ?_⟩
    · rw [Draft.addColumn, Draft.updateNode, h.nodes]
      exact Draft.modify_length _ d.nodes n
    · rw [Draft.addColumn, hlabel]
      exact TableNode.placed_addColumn h.placed
    · rw [Draft.addColumn, hlabel] at hc
      exact TableNode.owns_addColumn hnone hk h.owned hc

/-- The new node gains key columns. -/
theorem keyColumns (h : d.Gained label table d' n) {index : Nat} (hindex : index = d.nodes.length)
    {type : String} {keys : List ColumnRef} {u : PUnit}
    (hends : Planning.Ends (Planning.ownKeys index type keys) d' u d'') :
    ∃ n', d.Gained label table d'' n' ∧ n.Grown n' ∧ ∃ places, n'.keys = n.keys ++ places ∧
      List.Forall₂ (fun key place => key.table = table ∧ n'.column? key.column = some place)
        keys places := by
  subst hindex
  unfold Planning.ownKeys at hends
  induction keys generalizing d' n with
  | nil =>
    rw [Planning.ends_forM_nil] at hends
    subst hends
    exact ⟨n, h, .refl n, [], (List.append_nil _).symm, .nil⟩
  | cons key keys ih =>
    obtain ⟨d₂, hstep, hrest⟩ := Planning.ends_forM_cons.1 hends
    obtain ⟨place, d₁, hown, hmodify⟩ := Planning.ends_bind.1 hstep
    rw [Planning.ends_modify] at hmodify
    subst hmodify
    obtain ⟨htable, n₁, h₁, hgrown, hkeys, hplace⟩ := h.ownColumn hown
    have h₂ := h₁.updateNode (f := fun n => { n with keys := n.keys ++ [place] }) h₁.label h₁.table
      h₁.children h₁.filtered rfl
    obtain ⟨n', h', hgrown', places, hkeys', hall⟩ := ih h₂ hrest
    have hstays : n₁.Grown n' :=
      ⟨hgrown'.label, hgrown'.table, hgrown'.columns, hgrown'.children⟩
    refine ⟨n', h', hgrown.trans hstays, place :: places, ?_,
      .cons ⟨htable, hstays.column? hplace⟩ hall⟩
    rw [hkeys', hkeys, List.append_assoc]
    rfl

end Draft.Gained

namespace Planning

variable {r : TableRegistry} {d d' : Draft}

/-- The table of a type can be added: it has its keys, and its discriminator if it is abstract. -/
structure Addable (r : TableRegistry) (path : List String) (type table : String) : Prop where
  keyed : keyColumns r path type ≠ []
  keys : ∀ key ∈ keyColumns r path type, key.table = table
  discriminator : r.schema.isAbstract type = true → ∃ column cases,
    r.sourceField? path type TableField.discriminatorName = some (.discriminator column cases) ∧
      column.table = table

/-- Where a table is added, the keys of the type are selected of it, and its discriminator if the
type is abstract. -/
theorem ends_addNode {path : List String} {type label : String} {index : Nat}
    (h : Ends (addNode r path type label) d index d') :
    index = d.nodes.length ∧ ∃ first rest d₁, keyColumns r path type = first :: rest ∧
      Ends (ownKeys index type (keyColumns r path type))
        { d with nodes := d.nodes ++ [⟨label, first.table, [], [], [], false⟩] } ⟨⟩ d₁ ∧
      (¬ r.schema.isAbstract type = true ∧ d' = d₁ ∨
        r.schema.isAbstract type = true ∧ ∃ column cases position,
          r.sourceField? path type TableField.discriminatorName =
            some (.discriminator column cases) ∧
          Ends (ownColumn index TableField.discriminatorName column) d₁ position d') := by
  unfold addNode at h
  simp only at h
  split at h
  · exact absurd h not_ends_throw
  · rename_i first rest hkeys
    obtain ⟨_, _, hget, h⟩ := ends_bind.1 h
    obtain ⟨rfl, rfl⟩ := ends_get.1 hget
    obtain ⟨_, d₁, hset, h⟩ := ends_bind.1 h
    obtain ⟨_, d₂, hloop, h⟩ := ends_bind.1 h
    rw [← ends_set.1 hset] at hloop
    split at h
    · rename_i habstract
      split at h
      · rename_i column cases hsource
        obtain ⟨_, d₃, hown, hpure⟩ := ends_bind.1 h
        obtain ⟨rfl, rfl⟩ := ends_pure.1 hpure
        obtain ⟨position, hown⟩ := ends_discard.1 hown
        exact ⟨rfl, first, rest, d₂, hkeys, hloop,
          .inr ⟨habstract, column, cases, position, hsource, hown⟩⟩
      · exact absurd h not_ends_unsupported
    · rename_i hconcrete
      obtain ⟨rfl, rfl⟩ := ends_pure.1 h
      exact ⟨rfl, first, rest, d₂, hkeys, hloop, .inl ⟨hconcrete, rfl⟩⟩

/-- Adding a table gains a node, which is of the type, and can be done for the type. -/
theorem addNode_adds {path : List String} {type label : String} {index : Nat}
    (h : Ends (addNode r path type label) d index d') :
    index = d.nodes.length ∧ ∃ table n, (d.Gained label table d' n ∧ n.IsOf r path type) ∧
      Addable r path type table := by
  obtain ⟨rfl, first, rest, d₁, hkeys, hloop, hdiscriminator⟩ := ends_addNode h
  have hgained : d.Gained label first.table
      { d with nodes := d.nodes ++ [⟨label, first.table, [], [], [], false⟩] }
      ⟨label, first.table, [], [], [], false⟩ := by
    refine ⟨rfl, rfl, rfl, rfl, rfl, List.prefix_refl _, ?_, rfl, rfl, rfl, List.nodup_nil,
      fun k c hk hc => ?_⟩
    · intro name place hplace
      cases hplace
    · exact absurd (List.getElem?_eq_some_iff.1 hc).1 (Nat.not_lt.2 hk)
  obtain ⟨n₁, hgained₁, -, places, hplaces, hall⟩ := hgained.keyColumns rfl hloop
  rw [List.nil_append] at hplaces
  subst hplaces
  have htable : n₁.table = first.table := hgained₁.table
  have hkeyed : keyColumns r path type ≠ [] := hkeys ▸ List.cons_ne_nil first rest
  have htables : ∀ key ∈ keyColumns r path type, key.table = first.table := fun key hkey => by
    obtain ⟨_, -, hown⟩ := exists_of_forall₂ hall.flip key hkey
    exact hown.1
  rcases hdiscriminator with ⟨hconcrete, rfl⟩ | ⟨-, column, cases, place, hsource, hown⟩
  · refine ⟨rfl, first.table, n₁, ⟨hgained₁, ⟨first, rest, hkeys, htable⟩, ?_, ?_⟩, hkeyed, htables,
      fun habstract => absurd habstract hconcrete⟩
    · rw [htable]
      exact hall
    · exact fun habstract => absurd habstract hconcrete
  · obtain ⟨hcolumn, n₂, hgained₂, hgrown, hkeys₂, hplace⟩ := hgained₁.ownColumn hown
    refine ⟨rfl, first.table, n₂, ⟨hgained₂, ⟨first, rest, hkeys, hgained₂.table⟩, ?_, ?_⟩,
      hkeyed, htables, fun _ => ⟨column, cases, hsource, hcolumn⟩⟩
    · rw [hkeys₂, hgained₂.table]
      exact hall.imp fun key place hkey => ⟨hkey.1, hgrown.column? hkey.2⟩
    · exact fun _ => ⟨column, cases, hsource, Option.isSome_iff_exists.2 ⟨_, hplace⟩⟩

/-- Adding the table of a type gains a node, which is of the type. -/
theorem addNode_gains {path : List String} {type label : String} {index : Nat}
    (h : Ends (addNode r path type label) d index d') :
    index = d.nodes.length ∧ ∃ table n, d.Gained label table d' n ∧ n.IsOf r path type := by
  obtain ⟨hindex, table, n, hgained, -⟩ := addNode_adds h
  exact ⟨hindex, table, n, hgained⟩

/-- The name of the table that a number is given to. -/
def labelOf (k : Nat) : String := "t" ++ toString k

/-- What the table of a hop is joined on. -/
def hopCondition (parent next : String) (hop : Hop) : Condition :=
  .single (.compare .equal (.column ⟨some ⟨parent, none⟩, hop.parent.column⟩)
    (.column ⟨some ⟨next, none⟩, hop.child.column⟩))

/-- The joins of hops from a table, labelled from a number on. -/
def hopJoins (parent : String) : Nat → List Hop → List Join
  | _, [] => []
  | k, hop :: rest =>
    ⟨⟨hop.child.table, some (labelOf k)⟩, hopCondition parent (labelOf k) hop⟩ ::
      hopJoins (labelOf k) (k + 1) rest

@[simp] theorem length_hopJoins (parent : String) (k : Nat) (hops : List Hop) :
    (hopJoins parent k hops).length = hops.length := by
  induction hops generalizing parent k with
  | nil => rfl
  | cons hop rest ih => simp [hopJoins, ih]

/-- Hops add their joins and nothing else; they lead from table to table. -/
theorem addHops_joins {field : String} {hops : List Hop} {label table label' table' : String}
    (h : Ends (addHops field hops label table) d (label', table') d') :
    d' = { d with labels := d.labels + hops.length, joins := d.joins ++ hopJoins label d.labels hops } ∧
      (hops = [] → label' = label ∧ table' = table) ∧
      (hops ≠ [] → label' = labelOf (d.labels + hops.length - 1) ∧
        ∃ hop, hops.getLast? = some hop ∧ table' = hop.child.table) := by
  induction hops generalizing d label table with
  | nil =>
    simp only [addHops, ends_pure, Prod.mk.injEq] at h
    obtain ⟨⟨rfl, rfl⟩, rfl⟩ := h
    refine ⟨?_, fun _ => ⟨rfl, rfl⟩, fun h => absurd rfl h⟩
    simp [hopJoins]
  | cons hop rest ih =>
    unfold addHops at h
    split at h
    · exact absurd h not_ends_throw
    · obtain ⟨next, d₁, hnext, h⟩ := ends_bind.1 h
      obtain ⟨rfl, rfl⟩ := ends_nextLabel.1 hnext
      obtain ⟨_, d₂, hmodify, h⟩ := ends_bind.1 h
      rw [ends_modify] at hmodify
      subst hmodify
      obtain ⟨hd, hempty, hlast⟩ := ih h
      refine ⟨?_, fun h => absurd h (List.cons_ne_nil _ _), fun _ => ?_⟩
      · rw [hd]
        simp only [hopJoins, List.append_assoc, List.length_cons, Nat.add_assoc, Nat.add_comm 1]
        rfl
      · cases rest with
        | nil =>
          obtain ⟨rfl, rfl⟩ := hempty rfl
          exact ⟨rfl, hop, rfl, rfl⟩
        | cons hop' rest =>
          obtain ⟨hlabel, lastHop, hlastHop, htable⟩ := hlast (List.cons_ne_nil _ _)
          refine ⟨?_, lastHop, by simpa using hlastHop, htable⟩
          rw [hlabel]
          simp only [List.length_cons]
          congr 1
          omega

/-- Hops lead on from a table: each starts at the table that the one before it ends at. -/
def Linked : String → List Hop → Prop
  | _, [] => True
  | table, hop :: rest => hop.parent.table = table ∧ Linked hop.child.table rest

theorem addHops_linked {field : String} {hops : List Hop} {label table : String}
    {last : String × String} (h : Ends (addHops field hops label table) d last d') :
    Linked table hops := by
  induction hops generalizing d label table with
  | nil => trivial
  | cons hop rest ih =>
    unfold addHops at h
    split at h
    · exact absurd h not_ends_throw
    · rename_i htable
      obtain ⟨next, d₁, -, h⟩ := ends_bind.1 h
      obtain ⟨_, d₂, -, h⟩ := ends_bind.1 h
      exact ⟨not_not.1 htable, ih h⟩

/-- What joining an object field does: it takes the node that is already there, or it adds the joins
of the hops and a node for the last of their tables. -/
inductive Joins (r : TableRegistry) (place : Place) (field childType : String) (hops : List Hop)
    (filtered : Bool) (d : Draft) : JoinedField → Draft → Prop where
  | again (child : Nat) (hchild : (d.node place.node).child? field = some child)
    (hplain : (d.node child).filtered = false) (hnone : filtered = false) :
    Joins r place field childType hops filtered d
      ⟨⟨child, place.path ++ [field], childType⟩, joinIndex d child⟩ d
  | first (table : String) (n : TableNode) (d' : Draft) (lastHop : Hop)
    (hnone : (d.node place.node).child? field = none) (hlast : hops.getLast? = some lastHop)
    (htable : table = lastHop.child.table)
    (hgained : Draft.Gained { d with
      labels := d.labels + hops.length
      joins := d.joins ++ hopJoins (d.node place.node).label d.labels hops }
      (labelOf (d.labels + hops.length - 1)) table d' n)
    (hn : n.IsOf r (place.path ++ [field]) childType)
    (hlinked : Linked (d.node place.node).table hops) :
    Joins r place field childType hops filtered d
      ⟨⟨d.nodes.length, place.path ++ [field], childType⟩, d.joins.length + hops.length - 1⟩
      (d'.updateNode place.node fun n => n.addChild field d.nodes.length)

/-- An object field is joined by taking the node that is there, or else by adding the joins of its
hops and the table that they lead to, which has to be that of its type. -/
theorem ends_joinField {place : Place} {field childType : String} {hops : List Hop}
    {filtered : Bool} {joined : JoinedField}
    (h : Ends (joinField r place field childType hops filtered) d joined d') :
    (∃ child, (d.node place.node).child? field = some child ∧ (d.node child).filtered = false ∧
      filtered = false ∧ joined = ⟨⟨child, place.path ++ [field], childType⟩, joinIndex d child⟩ ∧
      d' = d) ∨
    (d.node place.node).child? field = none ∧ hops ≠ [] ∧ ∃ label table child d₁ d₂,
      Ends (addHops field hops (d.node place.node).label (d.node place.node).table) d (label, table)
        d₁ ∧
      Ends (addNode r (place.path ++ [field]) childType label) d₁ child d₂ ∧
      (d₂.node child).table = table ∧
      d' = d₂.updateNode place.node (fun n => n.addChild field child) ∧
      joined = ⟨⟨child, place.path ++ [field], childType⟩, d'.joins.length - 1⟩ := by
  unfold joinField at h
  obtain ⟨_, _, hget, h⟩ := ends_bind.1 h
  obtain ⟨rfl, rfl⟩ := ends_get.1 hget
  simp only at h
  split at h
  · rename_i child hchild
    split at h
    · exact absurd h not_ends_unsupported
    · rename_i hfiltered
      obtain ⟨rfl, rfl⟩ := ends_pure.1 h
      simp only [Bool.or_eq_true, not_or, Bool.not_eq_true] at hfiltered
      exact .inl ⟨child, hchild, hfiltered.1, hfiltered.2, rfl, rfl⟩
  · rename_i hnone
    split at h
    · exact absurd h not_ends_unsupported
    · rename_i hhops
      obtain ⟨⟨label, table⟩, d₁, hhop, h⟩ := ends_bind.1 h
      obtain ⟨child, d₂, hadd, h⟩ := ends_bind.1 h
      obtain ⟨_, _, hget, h⟩ := ends_bind.1 h
      obtain ⟨rfl, rfl⟩ := ends_get.1 hget
      split at h
      · exact absurd h not_ends_throw
      · rename_i htable
        obtain ⟨_, d₃, hmodify, h⟩ := ends_bind.1 h
        rw [ends_modify] at hmodify
        subst hmodify
        obtain ⟨_, _, hget, h⟩ := ends_bind.1 h
        obtain ⟨rfl, rfl⟩ := ends_get.1 hget
        obtain ⟨rfl, rfl⟩ := ends_pure.1 h
        exact .inr ⟨hnone, by simpa using hhops, label, table, child, d₁, d₂, hhop, hadd,
          not_not.1 htable, rfl, rfl⟩

theorem joinField_joins {place : Place} {field childType : String} {hops : List Hop}
    {filtered : Bool} {joined : JoinedField}
    (h : Ends (joinField r place field childType hops filtered) d joined d') :
    Joins r place field childType hops filtered d joined d' := by
  rcases ends_joinField h with ⟨child, hchild, hplain, hnone, rfl, rfl⟩ |
    ⟨hnone, hhops, label, table, child, d₁, d₂, hhop, hadd, htable, rfl, rfl⟩
  · exact .again child hchild hplain hnone
  · have hlinked := addHops_linked hhop
    obtain ⟨rfl, -, hlast⟩ := addHops_joins hhop
    obtain ⟨rfl, hop, hgetLast, rfl⟩ := hlast hhops
    obtain ⟨rfl, table', n, hgained, hn⟩ := addNode_gains hadd
    rw [Draft.node_eq hgained.node_eq] at htable
    have hlength : (d₂.updateNode place.node fun n => n.addChild field d.nodes.length).joins.length
        - 1 = d.joins.length + hops.length - 1 := by
      simp [Draft.updateNode, hgained.joins]
    have hjoins : Joins r place field childType hops filtered d _ _ :=
      .first table' n d₂ hop hnone hgetLast (hgained.table.symm.trans htable) hgained hn hlinked
    rw [← hlength] at hjoins
    exact hjoins

theorem Joins.keeps {place : Place} {field childType : String} {hops : List Hop} {filtered : Bool}
    {joined : JoinedField} (h : Joins r place field childType hops filtered d joined d') :
    d.Keeps d' := by
  cases h with
  | again => exact .refl d
  | first table n d₂ lastHop hnone hlast htable hgained hn =>
    have hhops : d.Keeps { d with
        labels := d.labels + hops.length
        joins := d.joins ++ hopJoins (d.node place.node).label d.labels hops } :=
      ⟨fun _ n hn => ⟨n, hn, .refl n, rfl, rfl⟩, List.prefix_refl _, List.prefix_append _ _, rfl⟩
    exact (hhops.trans hgained.keeps).trans
      (Draft.keeps_updateNode fun n _ => ⟨n.grown_addChild _ _, rfl, rfl⟩)

theorem Joins.place_eq {place : Place} {field childType : String} {hops : List Hop}
    {filtered : Bool} {joined : JoinedField}
    (h : Joins r place field childType hops filtered d joined d') :
    joined.place = ⟨joined.place.node, place.path ++ [field], childType⟩ := by
  cases h <;> rfl

/-- A joined object field is a child of its node. -/
theorem Joins.child? {place : Place} {field childType : String} {hops : List Hop} {filtered : Bool}
    {joined : JoinedField} {n : TableNode} (hn : d.nodes[place.node]? = some n)
    (h : Joins r place field childType hops filtered d joined d') :
    ∃ n', d'.nodes[place.node]? = some n' ∧ n'.child? field = some joined.place.node := by
  cases h with
  | again child hchild =>
    rw [Draft.node_eq hn] at hchild
    exact ⟨n, hn, hchild⟩
  | first table new d₂ lastHop hnone hlast htable hgained hof =>
    have hsame : d₂.nodes[place.node]? = some n := by
      rw [hgained.nodes, List.getElem?_append_left (List.getElem?_eq_some_iff.1 hn).1]
      exact hn
    rw [Draft.node_eq hn] at hnone
    refine ⟨n.addChild field d.nodes.length, ?_, TableNode.child?_addChild _ hnone⟩
    rw [Draft.updateNode_nodes, if_pos rfl, hsame]
    rfl

end Planning

theorem TableNode.IsOf.mono {n n' : TableNode} {r : TableRegistry} {path : List String}
    {type : String} (h : n.IsOf r path type) (hgrown : n.Grown n') (hkeys : n'.keys = n.keys) :
    n'.IsOf r path type := by
  obtain ⟨first, rest, hfirst, htable⟩ := h.table
  refine ⟨⟨first, rest, hfirst, hgrown.table.trans htable⟩, ?_, fun habstract => ?_⟩
  · rw [hkeys, hgrown.table]
    exact h.keys.imp fun key place hkey => ⟨hkey.1, hgrown.column? hkey.2⟩
  · obtain ⟨column, cases, hsource, hselected⟩ := h.discriminator habstract
    obtain ⟨place, hplace⟩ := Option.isSome_iff_exists.1 hselected
    exact ⟨column, cases, hsource, Option.isSome_iff_exists.2 ⟨place, hgrown.column? hplace⟩⟩

theorem TableNode.child?_of_addChild {n : TableNode} {field other : String} {child i : Nat}
    (h : (n.addChild field child).child? other = some i) :
    n.child? other = some i ∨ other = field ∧ i = child := by
  rw [child?, addChild, List.find?_append] at h
  cases hold : n.children.find? (·.1 = other) with
  | some link => exact .inl (by simpa [child?, hold] using h)
  | none =>
    rw [hold, Option.none_or] at h
    by_cases hname : field = other
    · refine .inr ⟨hname.symm, ?_⟩
      simpa [hname, eq_comm] using h
    · simp [hname] at h

/-- Each node was added for a type at a path, and its children for the fields of that type or of
one that its objects may be planned as. -/
structure NodesTyped (r : TableRegistry) (planned : List String → String → String → Prop)
    (nodes : List TableNode) (types : List (List String × String)) : Prop where
  length : types.length = nodes.length
  node : ∀ (i : Nat) (n : TableNode) (path : List String) (type : String),
    nodes[i]? = some n → types[i]? = some (path, type) → n.IsOf r path type
  child : ∀ (i : Nat) (n : TableNode) (path : List String) (type field : String) (child : Nat),
    nodes[i]? = some n → types[i]? = some (path, type) → n.child? field = some child →
      ∃ t f, planned path type t ∧ r.schema.field? t field = some f ∧
        types[child]? = some (path ++ [field], f.type.underlying)

namespace NodesTyped

variable {r : TableRegistry} {planned : List String → String → String → Prop}
  {nodes nodes' : List TableNode} {types : List (List String × String)}

theorem exists_node (h : NodesTyped r planned nodes types) {i : Nat} {path : List String}
    {type : String} (hi : types[i]? = some (path, type)) :
    ∃ n, nodes[i]? = some n ∧ n.IsOf r path type := by
  have hlt : i < nodes.length := h.length ▸ (List.getElem?_eq_some_iff.1 hi).1
  have hn : nodes[i]? = some nodes[i] := List.getElem?_eq_getElem hlt
  exact ⟨_, hn, h.node i _ path type hn hi⟩

/-- Nodes that gain columns only keep their types. -/
theorem of_grown (h : NodesTyped r planned nodes types) (hlength : nodes'.length = nodes.length)
    (hgrown : ∀ (i : Nat) (n' : TableNode), nodes'[i]? = some n' → ∃ n, nodes[i]? = some n ∧
      n.Grown n' ∧ n'.keys = n.keys ∧ n'.children = n.children) :
    NodesTyped r planned nodes' types := by
  refine ⟨h.length.trans hlength.symm, fun i n' path type hn' hi => ?_,
    fun i n' path type field child hn' hi hchild => ?_⟩
  · obtain ⟨n, hn, hg, hkeys, -⟩ := hgrown i n' hn'
    exact (h.node i n path type hn hi).mono hg hkeys
  · obtain ⟨n, hn, -, -, hchildren⟩ := hgrown i n' hn'
    rw [TableNode.child?, hchildren] at hchild
    exact h.child i n path type field child hn hi hchild

/-- A new node without children has the type that it was added for. -/
theorem append (h : NodesTyped r planned nodes types) {n : TableNode} {path : List String}
    {type : String} (hn : n.IsOf r path type) (hchildren : n.children = []) :
    NodesTyped r planned (nodes ++ [n]) (types ++ [(path, type)]) := by
  have hcases : ∀ (i : Nat) (n' : TableNode) (path' : List String) (type' : String),
      (nodes ++ [n])[i]? = some n' → (types ++ [(path, type)])[i]? = some (path', type') →
        (nodes[i]? = some n' ∧ types[i]? = some (path', type')) ∨
          (n' = n ∧ path' = path ∧ type' = type) := by
    intro i n' path' type' hn' hi
    rcases Nat.lt_or_ge i nodes.length with hlt | hge
    · rw [List.getElem?_append_left hlt] at hn'
      rw [List.getElem?_append_left (h.length.symm ▸ hlt)] at hi
      exact .inl ⟨hn', hi⟩
    · rw [List.getElem?_append_right hge] at hn'
      rw [List.getElem?_append_right (h.length.symm ▸ hge), h.length] at hi
      rw [List.getElem?_singleton] at hn' hi
      split at hn'
      · rename_i hzero
        rw [if_pos hzero] at hi
        cases hn'
        cases hi
        exact .inr ⟨rfl, rfl, rfl⟩
      · cases hn'
  refine ⟨by simp [h.length], fun i n' path' type' hn' hi => ?_,
    fun i n' path' type' field child hn' hi hchild => ?_⟩
  · rcases hcases i n' path' type' hn' hi with ⟨hn', hi⟩ | ⟨rfl, rfl, rfl⟩
    · exact h.node i n' path' type' hn' hi
    · exact hn
  · rcases hcases i n' path' type' hn' hi with ⟨hn', hi⟩ | ⟨rfl, rfl, rfl⟩
    · obtain ⟨t, f, hplanned, hf, hnode⟩ := h.child i n' path' type' field child hn' hi hchild
      refine ⟨t, f, hplanned, hf, ?_⟩
      rw [List.getElem?_append_left (List.getElem?_eq_some_iff.1 hnode).1]
      exact hnode
    · rw [TableNode.child?, hchildren] at hchild
      cases hchild

/-- A node gains a child that was added for the type of a field. -/
theorem addChild (h : NodesTyped r planned nodes types) {i child : Nat} {path : List String}
    {type t field : String} {f : FieldDefinition} (hi : types[i]? = some (path, type))
    (hplanned : planned path type t) (hf : r.schema.field? t field = some f)
    (hchild : types[child]? = some (path ++ [field], f.type.underlying)) :
    NodesTyped r planned (nodes.modify i fun n => n.addChild field child) types := by
  have hcases : ∀ (j : Nat) (n' : TableNode),
      (nodes.modify i fun n => n.addChild field child)[j]? = some n' →
        ∃ n, nodes[j]? = some n ∧ (n' = n ∨ i = j ∧ n' = n.addChild field child) := by
    intro j n' hn'
    rw [List.getElem?_modify] at hn'
    obtain ⟨n, hn, rfl⟩ := Option.map_eq_some_iff.1 hn'
    refine ⟨n, hn, ?_⟩
    by_cases hij : i = j
    · exact .inr ⟨hij, if_pos hij⟩
    · exact .inl (if_neg hij)
  refine ⟨by simp [h.length], fun j n' path' type' hn' hj => ?_,
    fun j n' path' type' other k hn' hj hk => ?_⟩
  · obtain ⟨n, hn, rfl | ⟨-, rfl⟩⟩ := hcases j n' hn'
    · exact h.node j n' path' type' hn hj
    · exact (h.node j n path' type' hn hj).mono (n.grown_addChild _ _) rfl
  · obtain ⟨n, hn, rfl | ⟨rfl, rfl⟩⟩ := hcases j n' hn'
    · exact h.child j n' path' type' other k hn hj hk
    · rcases TableNode.child?_of_addChild hk with hold | ⟨rfl, rfl⟩
      · exact h.child i n path' type' other k hn hj hold
      · rw [hi] at hj
        cases hj
        exact ⟨t, f, hplanned, hf, hchild⟩

end NodesTyped

namespace Planning

variable {r : TableRegistry} {d d' : Draft} {planned : List String → String → String → Prop}
  {types : List (List String × String)}

/-- Joining an object field leads to a node that was added for the field of a type of the same
objects. -/
theorem Joins.typed {place : Place} {field type : String} {f : FieldDefinition} {hops : List Hop}
    {filtered : Bool} {joined : JoinedField}
    (h : Joins r place field f.type.underlying hops filtered d joined d')
    (hd : NodesTyped r planned d.nodes types) (hplace : types[place.node]? = some (place.path, type))
    (hplanned : planned place.path type place.type)
    (hf : r.schema.field? place.type field = some f) :
    ∃ types', types <+: types' ∧ NodesTyped r planned d'.nodes types' ∧
      ∃ t g, planned place.path type t ∧ r.schema.field? t field = some g ∧
        types'[joined.place.node]? = some (place.path ++ [field], g.type.underlying) := by
  cases h with
  | again child hchild =>
    obtain ⟨n, hn, -⟩ := hd.exists_node hplace
    rw [Draft.node_eq hn] at hchild
    exact ⟨types, List.prefix_refl _, hd, hd.child _ n _ type field child hn hplace hchild⟩
  | first table n d₂ lastHop hnone hlast htable hgained hn =>
    have hnew : (types ++ [(place.path ++ [field], f.type.underlying)])[d.nodes.length]? =
        some (place.path ++ [field], f.type.underlying) := by
      rw [← hd.length]
      simp
    have hold : (types ++ [(place.path ++ [field], f.type.underlying)])[place.node]? =
        some (place.path, type) := by
      rw [List.getElem?_append_left (List.getElem?_eq_some_iff.1 hplace).1]
      exact hplace
    refine ⟨_, List.prefix_append _ _, ?_, place.type, f, hplanned, hf, hnew⟩
    have happend := hd.append hn hgained.children
    rw [← hgained.nodes] at happend
    exact happend.addChild hold hplanned hf hnew

/-- What planning a field comes to, by what the field is mapped to. -/
inductive FieldPlanned (r : TableRegistry) (place : Place) (name : String) (filtered : Bool) :
    Nat → Draft → Option JoinedField → Draft → Prop where
  | column {steps : Nat} {d d' : Draft} (own : String) (column : ColumnRef) (isKey hidden : Bool)
    (position : Nat)
    (hmapped : r.fieldMapping? place.path place.type name =
      some (.source (.column own column isKey hidden)))
    (hcolumn : Ends (ownColumn place.node name column) d position d') :
    FieldPlanned r place name filtered steps d none d'
  | joined {steps : Nat} {d d' : Draft} (own : String) (hops : List Hop) (f : FieldDefinition)
    (joined : JoinedField)
    (hmapped : r.fieldMapping? place.path place.type name = some (.source (.joined own hops)))
    (hf : r.schema.field? place.type name = some f)
    (hjoins : Joins r place name f.type.underlying hops filtered d joined d') :
    FieldPlanned r place name filtered steps d (some joined) d'
  | computed {steps : Nat} {d d' : Draft} (c : ComputedField)
    (hmapped : (∃ hidden, r.fieldMapping? place.path place.type name = some (.computed c hidden)) ∨
      r.fieldMapping? place.path place.type name = some (.computedAttribute c))
    (hrequired : Ends (c.required.forM fun sibling =>
      discard (planField r steps place sibling false)) d ⟨⟩ d') :
    FieldPlanned r place name filtered (steps + 1) d none d'
  | delegate {steps : Nat} {d d' : Draft} (delegate : Delegate Mapping)
    (hmapped : r.fieldMapping? place.path place.type name = some (.delegate delegate))
    (hcolumns : Ends (selectAllColumns r place) d () d') :
    FieldPlanned r place name filtered steps d none d'

theorem planField_planned {steps : Nat} {place : Place} {name : String} {filtered : Bool}
    {joined? : Option JoinedField}
    (h : Ends (planField r steps place name filtered) d joined? d') :
    FieldPlanned r place name filtered steps d joined? d' := by
  unfold planField at h
  split at h
  · rename_i hmapped
    obtain ⟨_, _, hcolumn, h⟩ := ends_bind.1 h
    obtain ⟨rfl, rfl⟩ := ends_pure.1 h
    obtain ⟨position, hcolumn⟩ := ends_discard.1 hcolumn
    exact .column _ _ _ _ position hmapped hcolumn
  · rename_i hmapped
    split at h
    · rename_i f hf
      obtain ⟨joined, hjoin, rfl⟩ := ends_map.1 h
      exact .joined _ _ f joined hmapped hf (joinField_joins hjoin)
    · exact absurd h not_ends_throw
  · rename_i c hidden hmapped
    cases steps with
    | zero => exact absurd h not_ends_throw
    | succ steps =>
      obtain ⟨_, _, hrequired, h⟩ := ends_bind.1 h
      obtain ⟨rfl, rfl⟩ := ends_pure.1 h
      exact .computed c (.inl ⟨hidden, hmapped⟩) hrequired
  · rename_i c hmapped
    cases steps with
    | zero => exact absurd h not_ends_throw
    | succ steps =>
      obtain ⟨_, _, hrequired, h⟩ := ends_bind.1 h
      obtain ⟨rfl, rfl⟩ := ends_pure.1 h
      exact .computed c (.inr hmapped) hrequired
  · rename_i delegate hmapped
    obtain ⟨_, _, hcolumns, h⟩ := ends_bind.1 h
    obtain ⟨rfl, rfl⟩ := ends_pure.1 h
    exact .delegate delegate hmapped hcolumns
  · exact absurd h not_ends_throw

/-- Of operands nothing is planned of constants, and fields of others. -/
theorem ends_planTerm {steps : Nat} {place : Place} {t : Term} {u : Unit}
    (h : Ends (planTerm r steps place t) d u d') : (∃ v, t = .const v ∧ d' = d) ∨
      ∃ name joined?, t = .path [name] ∧
        Ends (planField r steps place name false) d joined? d' := by
  unfold planTerm at h
  split at h
  · rename_i v
    obtain ⟨-, rfl⟩ := ends_pure.1 h
    exact .inl ⟨v, rfl, rfl⟩
  · rename_i name
    obtain ⟨joined?, h⟩ := ends_discard.1 h
    exact .inr ⟨name, joined?, rfl, h⟩
  · exact absurd h not_ends_unsupported

/-- A relation of drafts that selecting a column of a node brings about, and so do steps that bring
it about one after the other. -/
structure RelatesColumns (node : Nat) (R : Draft → Draft → Prop) : Prop where
  refl : ∀ d, R d d
  trans : ∀ {d d' d''}, R d d' → R d' d'' → R d d''
  column : ∀ {d d' : Draft} {position : Nat} {field : String} {column : ColumnRef},
    Ends (ownColumn node field column) d position d' → R d d'

/-- A relation of drafts that selecting a column and joining an object field at a place bring
about. -/
structure RelatesFields (r : TableRegistry) (place : Place) (R : Draft → Draft → Prop) : Prop
    extends RelatesColumns place.node R where
  joins : ∀ {d d' : Draft} {field type : String} {hops : List Hop} {filtered : Bool}
    {joined : JoinedField}, Joins r place field type hops filtered d joined d' → R d d'

section Relations

variable {R : Draft → Draft → Prop} {place : Place}

theorem RelatesColumns.forM (hR : RelatesColumns place.node R) {α : Type}
    {f : α → Planning PUnit} {as : List α} {u : PUnit}
    (step : ∀ a ∈ as, ∀ {d d' : Draft}, Ends (f a) d ⟨⟩ d' → R d d')
    (h : Ends (as.forM f) d u d') : R d d' :=
  (ends_forM (P := fun _ _ => True) hR.refl hR.trans (fun _ _ => trivial)
    (fun a ha _ _ _ hf => ⟨step a ha hf, trivial⟩) h).1

theorem RelatesColumns.selectAllColumns (hR : RelatesColumns place.node R) {u : Unit}
    (h : Ends (selectAllColumns r place) d u d') : R d d' := by
  unfold Planning.selectAllColumns at h
  obtain ⟨_, _, hget, h⟩ := ends_bind.1 h
  obtain ⟨rfl, rfl⟩ := ends_get.1 hget
  refine hR.forM (fun f _ d₁ d₂ hf => ?_) h
  split at hf
  · split at hf
    · obtain ⟨position, hf⟩ := ends_discard.1 hf
      exact hR.column hf
    · obtain ⟨-, rfl⟩ := ends_pure.1 hf
      exact hR.refl _
  · obtain ⟨-, rfl⟩ := ends_pure.1 hf
    exact hR.refl _

/-- Planning a field selects columns and joins object fields at its place. -/
theorem RelatesFields.planField (hR : RelatesFields r place R) {steps : Nat} {name : String}
    {filtered : Bool} {joined? : Option JoinedField}
    (h : Ends (planField r steps place name filtered) d joined? d') : R d d' := by
  induction steps using Nat.strongRecOn generalizing name filtered joined? d d' with
  | ind steps ih =>
    cases planField_planned h with
    | column own column isKey hidden position hmapped hcolumn => exact hR.column hcolumn
    | joined own hops f joined hmapped hf hjoins => exact hR.joins hjoins
    | @computed steps d d' c hmapped hrequired =>
      refine hR.forM (fun sibling _ d₁ d₂ hf => ?_) hrequired
      obtain ⟨joined?, hsibling⟩ := ends_discard.1 hf
      exact ih steps (Nat.lt_succ_self _) hsibling
    | delegate delegate hmapped hcolumns => exact hR.selectAllColumns hcolumns

theorem RelatesFields.planTerms (hR : RelatesFields r place R) {steps : Nat} {ts : List Term}
    {u : Unit} (h : Ends (planTerms r steps place ts) d u d') : R d d' := by
  refine hR.forM (fun t _ d₁ d₂ ht => ?_) h
  rcases ends_planTerm ht with ⟨v, -, rfl⟩ | ⟨name, joined?, -, hfield⟩
  · exact hR.refl _
  · exact hR.planField hfield

end Relations

/-- What stays at its node is no object field. -/
theorem FieldPlanned.not_joined {steps : Nat} {place : Place} {name : String} {filtered : Bool}
    (h : FieldPlanned r place name filtered steps d none d') (own : String) (hops : List Hop) :
    r.fieldMapping? place.path place.type name ≠ some (.source (.joined own hops)) := by
  cases h with
  | column own' column isKey hidden position hmapped => simp [hmapped]
  | computed c hmapped =>
    rcases hmapped with ⟨hidden, hmapped⟩ | hmapped <;> simp [hmapped]
  | delegate delegate hmapped => simp [hmapped]

/-- What planning a query comes to. A group is planned member by member. -/
inductive QueryPlanned (r : TableRegistry) (steps : Nat) :
    Place → Option ListPlace → Query → Draft → Query → Draft → Prop where
  | pushed {place : Place} {list : ListPlace} {p : Predicate} {child q : Query}
    {d d₁ d' : Draft} {c : Condition} (hpushable : list.pushable = true)
    (hcondition : condition r (d.node place.node) place p = .ok c)
    (hpush : Ends (pushCondition place.node list.target c) d () d₁)
    (hchild : QueryPlanned r steps place (some list) child d₁ q d') :
    QueryPlanned r steps place (some list) (.filter p child) d q d'
  | filter {place : Place} {list : ListPlace} {p : Predicate} {child q : Query} {d d₁ d' : Draft}
    (hpushable : list.pushable = false)
    (hterms : Ends (planTerms r steps place p.terms) d () d₁)
    (hchild : QueryPlanned r steps place (some list) child d₁ q d') :
    QueryPlanned r steps place (some list) (.filter p child) d (.filter p q) d'
  | unique {place : Place} {list : ListPlace} {child q : Query} {d d' : Draft}
    (hchild : QueryPlanned r steps place (some list) child d q d') :
    QueryPlanned r steps place (some list) (.unique child) d (.unique q) d'
  | orderBy {place : Place} {list : ListPlace} {selections : List OrderSelection}
    {child q : Query} {d d₁ d' : Draft}
    (hterms : Ends (planTerms r steps place (selections.map (·.term))) d () d₁)
    (hchild : QueryPlanned r steps place (some list) child d₁ q d') :
    QueryPlanned r steps place (some list) (.orderBy selections child) d (.orderBy selections q) d'
  | limit {place : Place} {list : ListPlace} {count : Nat} {child q : Query} {d d' : Draft}
    (hchild : QueryPlanned r steps place (some { list with pushable := false }) child d q d') :
    QueryPlanned r steps place (some list) (.limit count child) d (.limit count q) d'
  | groupNil {place : Place} {list? : Option ListPlace} {d : Draft} :
    QueryPlanned r steps place list? (.group []) d (.group []) d
  | groupCons {place : Place} {list? : Option ListPlace} {q q' : Query} {rest rest' : List Query}
    {d d₁ d' : Draft} (hfirst : QueryPlanned r steps place none q d q' d₁)
    (hrest : QueryPlanned r steps place none (.group rest) d₁ (.group rest') d') :
    QueryPlanned r steps place list? (.group (q :: rest)) d (.group (q' :: rest')) d'
  | typename {place : Place} {list? : Option ListPlace} {alias? : Option String}
    {bindings : List Binding} {child : Query} {d : Draft} :
    QueryPlanned r steps place list? (.select "__typename" alias? bindings child) d
      (.select "__typename" alias? bindings child) d
  | leaf {place : Place} {list? : Option ListPlace} {name : String} {alias? : Option String}
    {bindings : List Binding} {child : Query} {d d' : Draft} (count : Nat)
    (hname : name ≠ "__typename")
    (hfield : Ends (planField r steps place name (hasFilter child)) d none d') :
    QueryPlanned r steps place list? (.select name alias? bindings child) d
      (.select name alias? bindings child) { d' with fields := count }
  | joined {place : Place} {list? : Option ListPlace} {name : String} {alias? : Option String}
    {bindings : List Binding} {child q : Query} {d d₁ d' : Draft} {joined : JoinedField}
    (count : Nat) (hname : name ≠ "__typename")
    (hfield : Ends (planField r steps place name (hasFilter child)) d (some joined) d₁)
    (hchild : QueryPlanned r steps joined.place (some ⟨.join joined.join, true⟩) child d₁ q d') :
    QueryPlanned r steps place list? (.select name alias? bindings child) d
      (.select name alias? bindings q) { d' with fields := count }
  | narrow {place : Place} {list? : Option ListPlace} {type : String} {child q : Query}
    {d d' : Draft}
    (hchild : QueryPlanned r steps { place with type } none child d q d') :
    QueryPlanned r steps place list? (.narrow type child) d (.narrow type q) d'
  | component {place : Place} {list? : Option ListPlace} {type field : String} {child : Query}
    {d d' : Draft} (hcolumns : Ends (selectAllColumns r place) d () d') :
    QueryPlanned r steps place list? (.component type field child) d
      (.component type field child) d'
  | empty {place : Place} {list? : Option ListPlace} {d : Draft} :
    QueryPlanned r steps place list? .empty d .empty d

/-- Leaf fields are counted, which changes nothing else. -/
theorem ends_count {b : Bool} {q q' : Query}
    (h : Ends (if b then do modify (fun d => { d with fields := d.fields + 1 }); pure q
      else pure q) d q' d') : q = q' ∧ ∃ count, d' = { d with fields := count } := by
  split at h
  · obtain ⟨_, d₁, hmodify, h⟩ := ends_bind.1 h
    obtain ⟨rfl, rfl⟩ := ends_pure.1 h
    exact ⟨rfl, _, (ends_modify.1 hmodify).symm⟩
  · obtain ⟨rfl, rfl⟩ := ends_pure.1 h
    exact ⟨rfl, d.fields, rfl⟩

mutual

theorem planQuery_planned {steps : Nat} :
    ∀ {q q' : Query} {place : Place} {list? : Option ListPlace} {d d' : Draft},
      Ends (planQuery r steps place list? q) d q' d' →
        QueryPlanned r steps place list? q d q' d'
  | .filter p child, q', place, none, d, d', h => by
    rw [planQuery] at h
    exact absurd h not_ends_unsupported
  | .filter p child, q', place, some list, d, d', h => by
    rw [planQuery] at h
    split at h
    · rename_i hpushable
      obtain ⟨_, _, hget, h⟩ := ends_bind.1 h
      obtain ⟨rfl, rfl⟩ := ends_get.1 hget
      obtain ⟨c, _, hlift, h⟩ := ends_bind.1 h
      obtain ⟨hcondition, rfl⟩ := ends_lift.1 hlift
      obtain ⟨_, d₁, hpush, h⟩ := ends_bind.1 h
      exact .pushed hpushable hcondition hpush (planQuery_planned h)
    · rename_i hpushable
      obtain ⟨_, d₁, hterms, h⟩ := ends_bind.1 h
      obtain ⟨child', d₂, hchild, h⟩ := ends_bind.1 h
      obtain ⟨rfl, rfl⟩ := ends_pure.1 h
      exact .filter (Bool.eq_false_iff.2 hpushable) hterms (planQuery_planned hchild)
  | .unique child, q', place, none, d, d', h => by
    rw [planQuery] at h
    exact absurd h not_ends_unsupported
  | .unique child, q', place, some list, d, d', h => by
    rw [planQuery] at h
    obtain ⟨child', d₁, hchild, h⟩ := ends_bind.1 h
    obtain ⟨rfl, rfl⟩ := ends_pure.1 h
    exact .unique (planQuery_planned hchild)
  | .orderBy selections child, q', place, none, d, d', h => by
    rw [planQuery] at h
    exact absurd h not_ends_unsupported
  | .orderBy selections child, q', place, some list, d, d', h => by
    rw [planQuery] at h
    obtain ⟨_, d₁, hterms, h⟩ := ends_bind.1 h
    obtain ⟨child', d₂, hchild, h⟩ := ends_bind.1 h
    obtain ⟨rfl, rfl⟩ := ends_pure.1 h
    exact .orderBy hterms (planQuery_planned hchild)
  | .limit count child, q', place, none, d, d', h => by
    rw [planQuery] at h
    exact absurd h not_ends_unsupported
  | .limit count child, q', place, some list, d, d', h => by
    rw [planQuery] at h
    obtain ⟨child', d₁, hchild, h⟩ := ends_bind.1 h
    obtain ⟨rfl, rfl⟩ := ends_pure.1 h
    exact .limit (planQuery_planned hchild)
  | .group queries, q', place, list?, d, d', h => by
    rw [planQuery] at h
    obtain ⟨queries', d₁, hall, h⟩ := ends_bind.1 h
    obtain ⟨rfl, rfl⟩ := ends_pure.1 h
    exact planAll_planned hall
  | .select name alias? bindings child, q', place, list?, d, d', h => by
    rw [planQuery] at h
    split at h
    · rename_i hname
      obtain ⟨rfl, rfl⟩ := ends_pure.1 h
      subst hname
      exact .typename
    · rename_i hname
      obtain ⟨joined?, d₁, hfield, h⟩ := ends_bind.1 h
      cases joined? with
      | none =>
        obtain ⟨_, d₂, hpure, h⟩ := ends_bind.1 h
        obtain ⟨rfl, rfl⟩ := ends_pure.1 hpure
        obtain ⟨rfl, count, rfl⟩ := ends_count h
        exact .leaf count hname hfield
      | some joined =>
        obtain ⟨child', d₂, hchild, h⟩ := ends_bind.1 h
        obtain ⟨rfl, count, rfl⟩ := ends_count h
        exact .joined count hname hfield (planQuery_planned hchild)
  | .narrow type child, q', place, list?, d, d', h => by
    rw [planQuery] at h
    obtain ⟨child', d₁, hchild, h⟩ := ends_bind.1 h
    obtain ⟨rfl, rfl⟩ := ends_pure.1 h
    exact .narrow (planQuery_planned hchild)
  | .component type field child, q', place, list?, d, d', h => by
    rw [planQuery] at h
    obtain ⟨_, d₁, hcolumns, h⟩ := ends_bind.1 h
    obtain ⟨rfl, rfl⟩ := ends_pure.1 h
    exact .component hcolumns
  | .empty, q', place, list?, d, d', h => by
    rw [planQuery] at h
    obtain ⟨rfl, rfl⟩ := ends_pure.1 h
    exact .empty
  | .introspect child, q', place, list?, d, d', h => by
    rw [planQuery] at h
    exact absurd h not_ends_unsupported

theorem planAll_planned {steps : Nat} :
    ∀ {queries queries' : List Query} {place : Place} {list? : Option ListPlace} {d d' : Draft},
      Ends (planAll r steps place queries) d queries' d' →
        QueryPlanned r steps place list? (.group queries) d (.group queries') d'
  | [], queries', place, list?, d, d', h => by
    rw [planAll] at h
    obtain ⟨rfl, rfl⟩ := ends_pure.1 h
    exact .groupNil
  | q :: rest, queries', place, list?, d, d', h => by
    rw [planAll] at h
    obtain ⟨first, d₁, hfirst, h⟩ := ends_bind.1 h
    obtain ⟨others, d₂, hothers, h⟩ := ends_bind.1 h
    obtain ⟨rfl, rfl⟩ := ends_pure.1 h
    exact .groupCons (planQuery_planned hfirst) (planAll_planned hothers)

end

end Planning

/-- A plan is a draft of the table of its root, on which the query was planned. -/
theorem Plan.buildWithin_planned {steps : Nat} {r : TableRegistry} {field : String}
    {type : TypeRef} {child : Query} {plan : Plan}
    (h : Plan.buildWithin steps r field type child = .ok plan) :
    ∃ table n d d', Draft.Gained { Draft.empty with labels := 1 } (Planning.labelOf 0) table d n ∧
      n.IsOf r [field] type.underlying ∧
      Planning.QueryPlanned r steps ⟨0, [field], type.underlying⟩ (some ⟨.condition, true⟩) child d
        plan.residual d' ∧
      plan = d'.toPlan plan.residual := by
  unfold Plan.buildWithin at h
  obtain ⟨⟨residual, d'⟩, hplanning, h⟩ := bind_eq_ok.1 h
  obtain rfl := pure_eq_ok.1 h
  obtain ⟨label, d₀, hlabel, hplanning⟩ := Planning.ends_bind.1 hplanning
  obtain ⟨rfl, rfl⟩ := Planning.ends_nextLabel.1 hlabel
  obtain ⟨root, d, hroot, hplanning⟩ := Planning.ends_bind.1 hplanning
  obtain ⟨rfl, table, n, hgained, hn⟩ := Planning.addNode_gains hroot
  exact ⟨table, n, d, d', hgained, hn, Planning.planQuery_planned hplanning, rfl⟩

end MappedQuery.Sql
