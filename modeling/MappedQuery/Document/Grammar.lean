import MappedQuery.Document.Token
import MappedQuery.Schema.TypeRef
import MappedQuery.Value.Basic

/-!
# What request and schema documents share

A `Parser` takes tokens from the front of a list. This module reads what both kinds of documents
are made of: names, bracketed sequences, values, types and directives. Every nesting stands in
brackets, so the bound on open brackets also bounds how deep a parser calls itself.
-/
namespace MappedQuery.Document

abbrev Parser (α : Type) : Type := StateT (List Token) Option α

/-- A directive at a field, a fragment or a definition. -/
structure Directive where
  name : String
  arguments : List (String × Value)
deriving Repr, Inhabited

namespace Parser

def next : Parser Token := fun
  | [] => none
  | t :: rest => some (t, rest)

def peek : Parser (Option Token) := fun tokens => some (tokens.head?, tokens)

/-- How many tokens are left. -/
def remaining : Parser Nat := fun tokens => some (tokens.length, tokens)

/-- Takes the token if it is next, and tells whether it was. -/
def skip (token : Token) : Parser Bool := fun
  | [] => some (false, [])
  | t :: rest => if t = token then some (true, rest) else some (false, t :: rest)

def expect (token : Token) : Parser Unit := do
  if ← skip token then pure () else failure

def punctuator (c : Char) : Parser Unit := expect (.punctuator c)

def keyword (word : String) : Parser Unit := expect (.name word)

def name : Parser String := do
  match ← next with
  | .name s => pure s
  | _ => failure

/-- The name that comes next, if a name does. -/
def name? : Parser (Option String) := do
  match ← peek with
  | some (.name s) => do
    let _ ← next
    pure (some s)
  | _ => pure none

/-- At most `count` items up to a token, which is taken too. -/
def itemsUntil (closing : Token) (item : Parser α) : Nat → Parser (List α)
  | 0 => do
    expect closing
    pure []
  | count + 1 => do
    if ← skip closing then pure []
    else
      let a ← item
      let as ← itemsUntil closing item count
      pure (a :: as)

/-- Items up to a closing bracket. -/
def closedBy (closing : Char) (item : Parser α) : Parser (List α) := do
  itemsUntil (.punctuator closing) item (← remaining)

/-- One or more items between brackets. -/
def between (opening closing : Char) (item : Parser α) : Parser (List α) := do
  punctuator opening
  let items ← closedBy closing item
  if items.isEmpty then failure else pure items

/-- One or more items between brackets, or no brackets and no items. -/
def optionalBetween (opening closing : Char) (item : Parser α) : Parser (List α) := do
  if (← peek) = some (.punctuator opening) then between opening closing item else pure []

/-- At most `count` items that each follow a token. -/
def itemsAfter (token : Token) (item : Parser α) : Nat → Parser (List α)
  | 0 => pure []
  | count + 1 => do
    if ← skip token then
      let a ← item
      let as ← itemsAfter token item count
      pure (a :: as)
    else pure []

/-- Items that each follow a mark. -/
def each (mark : Char) (item : Parser α) : Parser (List α) := do
  itemsAfter (.punctuator mark) item (← remaining)

/-- One or more items with a mark between them. -/
def separated (mark : Char) (item : Parser α) : Parser (List α) := do
  let first ← item
  let rest ← each mark item
  pure (first :: rest)

/-- Items up to the end of the document. -/
def itemsToEnd (item : Parser α) : Nat → Parser (List α)
  | 0 => pure []
  | count + 1 => do
    if (← peek).isNone then pure []
    else
      let a ← item
      let as ← itemsToEnd item count
      pure (a :: as)

/-- The document of one or more items that a text writes. -/
def document? (item : Parser α) (text : String) : Option (List α) := do
  let tokens ← Token.scan? text
  let (items, rest) ← (itemsToEnd item tokens.length).run tokens
  if items.isEmpty || !rest.isEmpty then none else some items

end Parser

open MappedQuery.Document.Parser

/-- Input objects are kept in the order of their keys, a repeated key with its last value. -/
def sortedPut (member : String × Value) : List (String × Value) → List (String × Value)
  | [] => [member]
  | m :: rest =>
    if member.1 < m.1 then member :: m :: rest
    else if member.1 = m.1 then member :: rest
    else m :: sortedPut member rest

/-- The value that a name stands for. -/
def wordValue : String → Value
  | "true" => .boolean true
  | "false" => .boolean false
  | "null" => .null
  | s => .enum s

/-- An input object after its opening bracket, with values that `element` reads. -/
def objectValue (element : Parser Value) : Parser Value := do
  let members ← Parser.closedBy '}' do
    let key ← name
    punctuator ':'
    pure (key, ← element)
  pure (.object (members.foldl (fun ms m => sortedPut m ms) []))

/-- The value that starts with a token. What stands between its brackets is read by `element?`;
without that, no bracket may be opened. -/
def valueAfter (constant : Bool) (element? : Option (Parser Value)) : Token → Parser Value
  | .int n => pure (.int n)
  | .float x => pure (.float x)
  | .string s => pure (.string s)
  | .name s => pure (wordValue s)
  | .spread => failure
  | .punctuator c =>
    if c = '$' then
      if constant then failure else Value.reference <$> name
    else if c = '[' then
      element?.elim failure fun element => Value.list <$> Parser.closedBy ']' element
    else if c = '{' then element?.elim failure objectValue
    else failure

/-- A value with at most `depth` levels of brackets; a constant holds no references. -/
def value (constant : Bool) : Nat → Parser Value
  | 0 => do valueAfter constant none (← next)
  | depth + 1 => do valueAfter constant (some (value constant depth)) (← next)

/-- A type with at most `depth` levels of brackets. -/
def typeRef (depth : Nat) : Parser TypeRef := do
  let type ←
    match ← next with
    | .name s => pure (TypeRef.named s)
    | .punctuator '[' =>
      match depth with
      | 0 => failure
      | depth + 1 => do
        let item ← typeRef depth
        punctuator ']'
        pure (TypeRef.list item)
    | _ => failure
  if ← skip (.punctuator '!') then pure type else pure (.nullable type)

/-- A name, a colon and a value. -/
def argument : Parser (String × Value) := do
  let key ← name
  punctuator ':'
  pure (key, ← value false Token.deepest)

def arguments : Parser (List (String × Value)) := optionalBetween '(' ')' argument

def directives : Parser (List Directive) := each '@' do
  let name ← name
  pure { name, arguments := ← arguments }

end MappedQuery.Document
