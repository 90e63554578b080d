import MappedQuery.Query.Basic

/-!
# The text of queries

`Query.display` writes a query on one line for messages and statistics.
-/
namespace MappedQuery

namespace Binding

def display (b : Binding) : String := b.name ++ ": " ++ b.value.display

end Binding

namespace Query

mutual

def display : Query → String
  | select name alias? bindings child =>
    let label := match alias? with
      | some a => a ++ ":"
      | none => ""
    let arguments := if bindings.isEmpty then ""
      else "(" ++ String.intercalate ", " (bindings.map Binding.display) ++ ")"
    let body := if child.isEmpty then "" else " \x7b " ++ child.display ++ " \x7d"
    label ++ name ++ arguments ++ body
  | filter p child => "filter(" ++ p.display ++ ", " ++ child.display ++ ")"
  | unique child => "unique(" ++ child.display ++ ")"
  | group queries => String.intercalate ", " (displayAll queries)
  | narrow type child => "... on " ++ type ++ " \x7b " ++ child.display ++ " \x7d"
  | limit n child => "limit(" ++ toString n ++ ", " ++ child.display ++ ")"
  | orderBy os child =>
    "order_by(" ++ String.intercalate ", " (os.map (·.term.display)) ++ ", " ++
      child.display ++ ")"
  | component type field child =>
    "component(" ++ type ++ "." ++ field ++ ", " ++ child.display ++ ")"
  | introspect child => "introspect(" ++ child.display ++ ")"
  | empty => "<empty>"

def displayAll : List Query → List String
  | [] => []
  | q :: rest => q.display :: displayAll rest

end

end Query

end MappedQuery
