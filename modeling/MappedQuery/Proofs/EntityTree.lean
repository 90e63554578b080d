import MappedQuery.Proofs.EntityGroups

/-!
# Trees of tables and their entities

The tables that a statement joins form a tree, and what they hold is a forest of entities over
it. Joins flatten the forest: an entity has a row for every combination of the rows of its
children, and nulls stand where there are none. Reading follows the tree again: the elements at a
position, their columns, and their object fields.
-/
namespace MappedQuery.Sql

mutual

/-- A table of a plan, where it stands among the tables, with those joined to it. -/
inductive NodeTree where
  | mk (index : Nat) (node : TableNode) (children : Branches)

/-- The object fields of a table, each with the tree of its table. -/
inductive Branches where
  | nil
  | cons (field : String) (tree : NodeTree) (rest : Branches)

end

/-- An entity: a cell for each column of its table, and the entities of each object field. -/
inductive Entity where
  | mk (cells : List Cell) (children : List (List Entity))

/-- Cells at some places of a row. -/
abbrev Fragment : Type := List (Nat × Cell)

namespace Fragment

/-- The cell at a place, null where the fragment says nothing. -/
def cell (f : Fragment) (place : Nat) : Cell := (f.lookup place).getD .null

/-- The row of a width that a fragment fills, nulls elsewhere. -/
def row (width : Nat) (f : Fragment) : Row := (List.range width).map f.cell

end Fragment

namespace TableNode

/-- The places of the columns. -/
def places (n : TableNode) : List Nat := n.columns.map (·.2)

/-- What an entity with these cells says in a row. -/
def fragment (n : TableNode) (cells : List Cell) : Fragment := n.places.zip cells

/-- A table of a plan: columns and object fields are told apart by their names, and its key
columns, of which there are some, are selected. -/
structure Sound (n : TableNode) : Prop where
  columns : (n.columns.map (·.1)).Nodup
  children : (n.children.map (·.1)).Nodup
  keyed : n.keys ≠ []
  keys : ∀ place ∈ n.keys, place ∈ n.places

end TableNode

namespace Branches

/-- The object fields with the index of their tables. -/
def links : Branches → List (String × Nat)
  | nil => []
  | cons field (.mk index _ _) rest => (field, index) :: rest.links

end Branches

mutual

/-- The places of all columns in a tree. -/
def NodeTree.places : NodeTree → List Nat
  | .mk _ node children => node.places ++ children.places

def Branches.places : Branches → List Nat
  | .nil => []
  | .cons _ tree rest => tree.places ++ rest.places

end

mutual

/-- The tree is made of the tables of a plan as they are linked. -/
def NodeTree.Among (tables : List TableNode) : NodeTree → Prop
  | .mk index node children =>
    tables[index]? = some node ∧ node.Sound ∧ node.children = children.links ∧
      children.Among tables

def Branches.Among (tables : List TableNode) : Branches → Prop
  | .nil => True
  | .cons _ tree rest => tree.Among tables ∧ rest.Among tables

end

namespace NodeTree

def index : NodeTree → Nat
  | mk index _ _ => index

def node : NodeTree → TableNode
  | mk _ node _ => node

/-- The cells of the key columns of an entity. -/
def key : NodeTree → Entity → List Cell
  | mk _ node _, .mk cells _ => node.keys.map (node.fragment cells).cell

end NodeTree

mutual

/-- The entity has a cell for each column of the table at the root, none of its key cells is null,
and its children, which have distinct keys in each field, are entities of the trees below. -/
def NodeTree.Holds : NodeTree → Entity → Prop
  | .mk _ node children, .mk cells lists =>
    cells.length = node.columns.length ∧
      (∀ place ∈ node.keys, ((node.fragment cells).cell place).isNull = false) ∧
      children.Hold lists

def Branches.Hold : Branches → List (List Entity) → Prop
  | .nil, lists => lists = []
  | .cons _ _ _, [] => False
  | .cons _ tree rest, entities :: lists =>
    (∀ e ∈ entities, tree.Holds e) ∧ (entities.map tree.key).Nodup ∧ rest.Hold lists

end

mutual

/-- The fragments of rows that joins make of an entity: its own cells with every combination of
those of its children. -/
def NodeTree.flatten : NodeTree → Entity → List Fragment
  | .mk _ node children, .mk cells lists =>
    (children.combinations lists).map (node.fragment cells ++ ·)

/-- All combinations of a fragment of each field; a field without entities has the empty one. -/
def Branches.combinations : Branches → List (List Entity) → List Fragment
  | .nil, _ => [[]]
  | .cons _ _ rest, [] => rest.combinations []
  | .cons _ tree rest, entities :: lists =>
    (if entities.isEmpty then [[]] else entities.flatMap fun e => tree.flatten e).flatMap
      fun f => (rest.combinations lists).map (f ++ ·)

end

/-- The rows of a width that joins make of entities, one entity after the other. -/
def NodeTree.rows (t : NodeTree) (width : Nat) (entities : List Entity) : List Row :=
  (entities.flatMap t.flatten).map (Fragment.row width)

end MappedQuery.Sql

namespace MappedQuery

open Sql

/-- The value of a selected column of the entity at the cursor. -/
def Cursor.column (c : Cursor) (name : String) : Except Fault Cell :=
  match c.focus with
  | .table _ e => c.columnCell e name
  | .document .. => c.mismatch "an object"

namespace Sql

mutual

/-- The entity at a cursor. -/
def NodeTree.read : NodeTree → Cursor → Except Fault Entity
  | .mk _ node children, c => do
    let cells ← node.columns.mapM fun column => c.column column.1
    let lists ← children.read c
    pure (.mk cells lists)

/-- The elements of each object field at a cursor. -/
def Branches.read : Branches → Cursor → Except Fault (List (List Entity))
  | .nil, _ => pure []
  | .cons field tree rest, c => do
    let next ← c.field field
    let entities ← next.elements.mapM fun e => tree.read e
    let lists ← rest.read c
    pure (entities :: lists)

end

/-- The concrete type of an entity at a position of a declared type: that type, or the one that
its discriminator column tells. -/
def TableNode.HasType (n : TableNode) (r : TableRegistry) (path : List String) (declared : String)
    (own : Fragment) (type : String) : Prop :=
  (r.schema.isAbstract declared = false ∧ type = declared) ∨
    (r.schema.isAbstract declared = true ∧ ∃ column cases place choice,
      r.fieldMapping? path declared TableField.discriminatorName =
          some (.source (.discriminator column cases)) ∧
        n.column? column.column = some place ∧
        cases.find? (fun c => c.1.looselyEquals (own.cell place).toValue) = some (choice, type))

mutual

/-- The entity has a concrete type at a position, and that type maps and declares its object
fields. -/
def NodeTree.Typed (r : TableRegistry) : NodeTree → List String → String → Entity → Prop
  | .mk _ node children, path, declared, .mk cells lists =>
    ∃ type, node.HasType r path declared (node.fragment cells) type ∧
      children.Typed r path type lists

def Branches.Typed (r : TableRegistry) : Branches → List String → String → List (List Entity) → Prop
  | .nil, _, _, _ => True
  | .cons _ _ _, _, _, [] => True
  | .cons field tree rest, path, type, entities :: lists =>
    (∃ own hops f, r.sourceField? path type field = some (.joined own hops) ∧
      r.schema.field? type field = some f ∧
      ∀ e ∈ entities, tree.Typed r (path ++ [field]) f.type.underlying e) ∧
      rest.Typed r path type lists

end

section Unfolding

variable {index : Nat} {node : TableNode} {children rest : Branches} {tree : NodeTree}
  {cells : List Cell} {entities : List Entity} {lists : List (List Entity)} {field : String}
  {r : TableRegistry} {path : List String} {type : String}

@[simp] theorem NodeTree.holds_mk :
    (NodeTree.mk index node children).Holds (.mk cells lists) ↔
      cells.length = node.columns.length ∧
        (∀ place ∈ node.keys, ((node.fragment cells).cell place).isNull = false) ∧
        children.Hold lists := by
  rw [NodeTree.Holds]

@[simp] theorem Branches.hold_nil : Branches.nil.Hold lists ↔ lists = [] := by
  rw [Branches.Hold]

@[simp] theorem Branches.not_hold_cons_nil : ¬ (Branches.cons field tree rest).Hold [] := by
  rw [Branches.Hold]
  exact not_false

@[simp] theorem Branches.hold_cons :
    (Branches.cons field tree rest).Hold (entities :: lists) ↔
      (∀ e ∈ entities, tree.Holds e) ∧ (entities.map tree.key).Nodup ∧ rest.Hold lists := by
  rw [Branches.Hold]

@[simp] theorem NodeTree.typed_mk :
    (NodeTree.mk index node children).Typed r path type (.mk cells lists) ↔
      ∃ concrete, node.HasType r path type (node.fragment cells) concrete ∧
        children.Typed r path concrete lists := by
  rw [NodeTree.Typed]

@[simp] theorem Branches.typed_nil : Branches.nil.Typed r path type lists := by
  rw [Branches.Typed]
  trivial

@[simp] theorem Branches.typed_cons :
    (Branches.cons field tree rest).Typed r path type (entities :: lists) ↔
      (∃ own hops f, r.sourceField? path type field = some (.joined own hops) ∧
        r.schema.field? type field = some f ∧
        ∀ e ∈ entities, tree.Typed r (path ++ [field]) f.type.underlying e) ∧
        rest.Typed r path type lists := by
  rw [Branches.Typed]

end Unfolding

end Sql

end MappedQuery
