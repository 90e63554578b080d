import MappedQuery.Value.Basic
import MappedQuery.Number.Decimal

/-!
# The text of values

`Value.display` writes a value for messages, for query texts and for the defaults that
introspection reports. Text and identifiers stand between quotes and nothing is escaped.
-/
namespace MappedQuery.Value

mutual

def display : Value → String
  | absent => "<absent>"
  | null => "null"
  | int n => toString n.toInt
  | float x => Layout.plain.write x
  | string s => "\"" ++ s ++ "\""
  | id s => "\"" ++ s ++ "\""
  | enum name => name
  | boolean b => if b then "true" else "false"
  | reference name => "$" ++ name
  | list values => "[" ++ String.intercalate ", " (displayElements values) ++ "]"
  | object members => "\x7b" ++ String.intercalate ", " (displayMembers members) ++ "\x7d"

def displayElements : List Value → List String
  | [] => []
  | v :: rest => display v :: displayElements rest

/-- The members that are not absent. -/
def displayMembers : List (String × Value) → List String
  | [] => []
  | (k, v) :: rest =>
    if v.isAbsent then displayMembers rest else (k ++ ": " ++ display v) :: displayMembers rest

end

end MappedQuery.Value
