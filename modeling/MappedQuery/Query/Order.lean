import MappedQuery.Query.Predicate

/-!
# Orderings

A list is ordered by the values of terms, each ascending or descending, with the entities whose
value is missing all before or all after the others.
-/
namespace MappedQuery

inductive SortOrder where
  | ascending
  | descending
deriving DecidableEq, Repr, Inhabited

inductive NullsOrder where
  | first
  | last
deriving DecidableEq, Repr, Inhabited

structure OrderSelection where
  term : Term
  sort : SortOrder
  nulls : NullsOrder
deriving Repr, Inhabited, BEq

namespace OrderSelection

/-- Ascending, missing values first. -/
def ascending (term : Term) : OrderSelection := ⟨term, .ascending, .first⟩

/-- Descending, missing values last. -/
def descending (term : Term) : OrderSelection := ⟨term, .descending, .last⟩

end OrderSelection

end MappedQuery
