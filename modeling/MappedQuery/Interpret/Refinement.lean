import MappedQuery.Interpret.Sorting

/-!
# Refining lists

The list operations of a query pick and order the elements of a list, the outermost first. What
is left is refined further, and one of them may ask that a single element is left.
-/
namespace MappedQuery

/-- What list operations leave of a list. -/
structure Refined where
  elements : List Cursor
  /-- Whether there must be one element. -/
  isUnique : Bool

/-- The elements that a predicate holds of. -/
def satisfying (m : Mapping) (p : Predicate) : List Cursor → Except Fault (List Cursor)
  | [] => .ok []
  | c :: rest => do
    let kept ← p.holds m c
    let others ← satisfying m p rest
    pure (if kept then c :: others else others)

namespace Query

/-- The elements that are left below the list operations of a query. -/
def refine (m : Mapping) : Query → Refined → Except Fault Refined
  | filter p child, r => do
    child.refine m { r with elements := ← satisfying m p r.elements }
  | orderBy selections child, r => do
    child.refine m { r with elements := ← ordered m selections r.elements }
  | limit count child, r => child.refine m { r with elements := r.elements.take count }
  | unique child, r => child.refine m { r with isUnique := true }
  | _, r => .ok r

end Query

end MappedQuery
