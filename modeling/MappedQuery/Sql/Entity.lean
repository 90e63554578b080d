import MappedQuery.Sql.Plan

/-!
# Entities

The rows of a statement repeat an entity once for every combination of the rows joined to it.
`RowGroup.entities` takes rows apart by the key columns of a table, in the order in which the keys
are first seen; a row whose key is null belongs to no entity, which is how the empty rows of
joins without matches disappear. Keys are equal if they are equal cell by cell, doubles by their
bits.
-/
namespace MappedQuery.Sql

/-- The items with one key after the other, keys in the order in which they are first seen; items
without a key are left out. -/
def groupByKey [DecidableEq κ] (key? : α → Option κ) (items : List α) : List (List α) :=
  let keyed := items.filterMap fun i => (key? i).map fun k => (k, i)
  (keyed.map (·.1)).eraseDups.map fun k => (keyed.filter (·.1 = k)).map (·.2)

/-- Rows of a statement, seen as entities of one of the tables that it joins. -/
structure RowGroup where
  tables : List TableNode
  /-- Which of the tables. -/
  index : Nat
  rows : List Row
deriving Repr

namespace RowGroup

def node (g : RowGroup) : TableNode := g.tables.getD g.index default

/-- The key of the entity that a row holds of a table, none if a key column is null. -/
def keyAt? (n : TableNode) (row : Row) : Option (List Cell) :=
  n.keys.mapM fun column => row[column]?.filter fun c => !c.isNull

def key? (g : RowGroup) : Row → Option (List Cell) := keyAt? g.node

/-- The rows of each entity. -/
def entities (g : RowGroup) : List RowGroup :=
  (groupByKey g.key? g.rows).map fun rows => { g with rows }

/-- The rows that hold an entity. -/
def present (g : RowGroup) : RowGroup :=
  { g with rows := g.rows.filter fun row => (g.key? row).isSome }

/-- The same rows, seen as entities of another table. -/
def seenAs (g : RowGroup) (index : Nat) : RowGroup := { g with index }

/-- The cell in the first row. -/
def firstCell (g : RowGroup) (column : Nat) : Cell :=
  (g.rows.head?.bind fun row => row[column]?).getD .null

end RowGroup

@[simp] theorem groupByKey_nil [DecidableEq κ] (key? : α → Option κ) :
    groupByKey key? [] = [] := rfl

/-- The items of one group have one key. -/
theorem exists_key_of_mem_groupByKey [DecidableEq κ] {key? : α → Option κ} {items group : List α}
    (h : group ∈ groupByKey key? items) : ∃ k, ∀ i ∈ group, key? i = some k := by
  obtain ⟨k, _, rfl⟩ := List.mem_map.1 h
  refine ⟨k, fun i hi => ?_⟩
  obtain ⟨⟨l, j⟩, hj, rfl⟩ := List.mem_map.1 hi
  obtain ⟨hmem, hl⟩ := List.mem_filter.1 hj
  obtain ⟨i', _, hi'⟩ := List.mem_filterMap.1 hmem
  obtain ⟨k', hk', heq⟩ := Option.map_eq_some_iff.1 hi'
  simp_all

end MappedQuery.Sql
