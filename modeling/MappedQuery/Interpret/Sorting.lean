import MappedQuery.Interpret.Condition
import MappedQuery.Query.Order
import MappedQuery.Sort.Stable

/-!
# Sorting

Elements are ordered by their keys, one for each selection of an ordering; the sort is stable.
Keys of kinds that cannot be compared count as equal, and where empty keys go does not depend on
the direction.
-/
namespace MappedQuery

namespace OrderSelection

/-- The order of two keys of a selection. -/
def compareKeys (s : OrderSelection) (a b : Value) : Ordering :=
  match a.isEmpty, b.isEmpty, s.nulls with
  | true, true, _ => .eq
  | true, false, .first => .lt
  | true, false, .last => .gt
  | false, true, .first => .gt
  | false, true, .last => .lt
  | false, false, _ =>
    let o := (a.compare b).getD .eq
    match s.sort with
    | .ascending => o
    | .descending => o.swap

/-- The order of two elements with these keys: that of the first keys that differ. -/
def compareAll : List OrderSelection → List Value → List Value → Ordering
  | s :: rest, a :: as, b :: bs => (s.compareKeys a b).then (compareAll rest as bs)
  | _, _, _ => .eq

end OrderSelection

/-- The elements with the keys that they are ordered by. -/
def keyed (m : Mapping) (selections : List OrderSelection) (elements : List Cursor) :
    Except Fault (List (List Value × Cursor)) :=
  elements.mapM fun c => do pure (← selections.mapM fun s => s.term.value m c, c)

/-- The elements in the order of the selections. -/
def ordered (m : Mapping) (selections : List OrderSelection) (elements : List Cursor) :
    Except Fault (List Cursor) := do
  let items ← keyed m selections elements
  let sorted := stableSort (fun a b => OrderSelection.compareAll selections a.1 b.1) items
  pure (sorted.map (·.2))

end MappedQuery
