import MappedQuery.Sql.Evaluation
import MappedQuery.Text.Like

/-!
# Patterns without regard to case

Matching without regard to case is exact matching of folded texts: folding changes no wildcard
into a letter and no letter into a wildcard. So a database that folds both sides of a pattern
matches as it is done in memory.
-/
namespace MappedQuery.Text

namespace Fold

/-- A text in which every character is folded. -/
def folded (s : String) : String := String.ofList (s.toList.map fold)

end Fold

namespace Like

open Fold

end Like

end MappedQuery.Text
