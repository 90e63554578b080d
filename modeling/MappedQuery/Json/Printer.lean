import MappedQuery.Json.Basic
import MappedQuery.Text.Hex

/-!
# Written documents

`Json.compact` writes a document without blanks, `Json.pretty` with two blanks for each level.
Strings escape the quote, the backslash and the control characters below the blank, and nothing
else.
-/
namespace MappedQuery.Json

open Text (hexDigit)

/-- A character inside a quoted string. -/
def escapeChar (c : Char) : List Char :=
  match c with
  | '"' => ['\\', '"']
  | '\\' => ['\\', '\\']
  | '\n' => ['\\', 'n']
  | '\r' => ['\\', 'r']
  | '\t' => ['\\', 't']
  | c =>
    if c.toNat = 8 then ['\\', 'b']
    else if c.toNat = 12 then ['\\', 'f']
    else if c.toNat < 32 then
      ['\\', 'u', '0', '0', hexDigit (c.toNat / 16), hexDigit c.toNat]
    else [c]

def quote (s : String) : String :=
  String.ofList ('"' :: (s.toList.flatMap escapeChar ++ ['"']))

mutual

/-- The document without blanks. -/
def compact : Json → String
  | null => "null"
  | bool b => if b then "true" else "false"
  | integer n => toString n
  | double x => Layout.json.write x
  | string s => quote s
  | array elements => "[" ++ String.intercalate "," (compactElements elements) ++ "]"
  | object members => "\x7b" ++ String.intercalate "," (compactMembers members) ++ "\x7d"

def compactElements : List Json → List String
  | [] => []
  | e :: rest => compact e :: compactElements rest

def compactMembers : List (String × Json) → List String
  | [] => []
  | (k, v) :: rest => (quote k ++ ":" ++ compact v) :: compactMembers rest

end

/-- Items on lines of their own between brackets, indented one level deeper than the brackets. -/
def block (opening closing : String) (level : Nat) : List String → String
  | [] => opening ++ closing
  | items =>
    let line := "\n" ++ String.ofList (List.replicate (2 * level) ' ')
    opening ++ line ++ "  " ++ String.intercalate ("," ++ line ++ "  ") items ++ line ++ closing

mutual

/-- The document with every element and member on a line of its own, below `level` others. -/
def prettyAt (level : Nat) : Json → String
  | array elements => block "[" "]" level (prettyElements (level + 1) elements)
  | object members => block "\x7b" "\x7d" level (prettyMembers (level + 1) members)
  | other => compact other

def prettyElements (level : Nat) : List Json → List String
  | [] => []
  | e :: rest => prettyAt level e :: prettyElements level rest

def prettyMembers (level : Nat) : List (String × Json) → List String
  | [] => []
  | (k, v) :: rest => (quote k ++ ": " ++ prettyAt level v) :: prettyMembers level rest

end

def pretty (document : Json) : String := prettyAt 0 document

end MappedQuery.Json
