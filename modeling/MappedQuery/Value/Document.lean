import MappedQuery.Value.Basic
import MappedQuery.Json.Basic
import MappedQuery.Number.Whole

/-!
# Values and documents

`Value.ofJson` reads a document as a value: whole numbers of sixty-four bits become `int`, all
other numbers `float`, and text stays text since a document does not tell the text-like kinds
apart. `Value.toJson` writes a value: absent members of input objects are left out, every other
absent value becomes null.
-/
namespace MappedQuery.Value

/-- The value of a whole number: an `int` if it fits one, else the nearest double. -/
def ofWhole (n : Int) : Value :=
  match toInt64? n with
  | some m => int m
  | none => float (Double.ofInt n)

mutual

def ofJson : Json → Value
  | .null => null
  | .bool b => boolean b
  | .integer n => ofWhole n
  | .double x => float x
  | .string s => string s
  | .array elements => list (ofJsonElements elements)
  | .object members => object (ofJsonMembers members)

def ofJsonElements : List Json → List Value
  | [] => []
  | e :: rest => ofJson e :: ofJsonElements rest

def ofJsonMembers : List (String × Json) → List (String × Value)
  | [] => []
  | (k, v) :: rest => (k, ofJson v) :: ofJsonMembers rest

end

mutual

def toJson : Value → Json
  | absent => .null
  | null => .null
  | int n => .integer n.toInt
  | float x => Json.ofDouble x
  | string s => .string s
  | id s => .string s
  | enum name => .string name
  | boolean b => .bool b
  | reference name => .string ("$" ++ name)
  | list values => .array (toJsonElements values)
  | object members => Json.ofMembers (toJsonMembers members)

def toJsonElements : List Value → List Json
  | [] => []
  | v :: rest => toJson v :: toJsonElements rest

def toJsonMembers : List (String × Value) → List (String × Json)
  | [] => []
  | (k, v) :: rest =>
    if v.isAbsent then toJsonMembers rest else (k, toJson v) :: toJsonMembers rest

end

end MappedQuery.Value
