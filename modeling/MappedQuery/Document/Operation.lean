import MappedQuery.Document.Grammar

/-!
# Request documents

A request document holds operations and fragments. `Request.parse?` reads one; an operation that
is a bare selection set is a query without a name.
-/
namespace MappedQuery.Document

/-- A member of a selection set. -/
inductive Selection where
  | field (alias? : Option String) (name : String) (arguments : List (String × Value))
      (directives : List Directive) (selections : List Selection)
  | spread (fragment : String) (directives : List Directive)
  | inline (type? : Option String) (directives : List Directive) (selections : List Selection)
deriving Repr, Inhabited

inductive OperationKind where
  | query
  | mutation
  | subscription
deriving DecidableEq, Repr

structure VariableDefinition where
  name : String
  type : TypeRef
  default? : Option Value
deriving Repr

structure Operation where
  kind : OperationKind
  name? : Option String
  variableDefinitions : List VariableDefinition
  selections : List Selection
deriving Repr

/-- A named selection set on a type. -/
structure Fragment where
  name : String
  type : String
  selections : List Selection
deriving Repr

structure Request where
  operations : List Operation
  fragments : List Fragment
deriving Repr

namespace Request

/-- The fragment of a name, the last one declared under it. -/
def fragment? (r : Request) (name : String) : Option Fragment :=
  r.fragments.reverse.find? (·.name = name)

end Request

open MappedQuery.Document.Parser

/-- A selection whose own selection sets `inner` reads. -/
def selection (inner : Parser (List Selection)) : Parser Selection := do
  if ← skip .spread then
    match ← peek with
    | some (.name "on") => do
      keyword "on"
      let type ← name
      pure (.inline (some type) (← directives) (← inner))
    | some (.name _) => pure (.spread (← name) (← directives))
    | _ => pure (.inline none (← directives) (← inner))
  else
    let first ← name
    let second? ← do if ← skip (.punctuator ':') then some <$> name else pure none
    let arguments ← arguments
    let directives ← directives
    let nested := (← peek) = some (.punctuator '{')
    let selections ← if nested then inner else pure []
    match second? with
    | some name => pure (.field (some first) name arguments directives selections)
    | none => pure (.field none first arguments directives selections)

/-- A selection set with at most `depth` levels of brackets. -/
def selectionSet : Nat → Parser (List Selection)
  | 0 => failure
  | depth + 1 => between '{' '}' (selection (selectionSet depth))

def selections : Parser (List Selection) := selectionSet Token.deepest

def variableDefinition : Parser VariableDefinition := do
  punctuator '$'
  let name ← name
  punctuator ':'
  let type ← typeRef Token.deepest
  let hasDefault ← skip (.punctuator '=')
  let default? ← if hasDefault then some <$> value true Token.deepest else pure none
  pure { name, type, default? }

def operation (kind : OperationKind) : Parser Operation := do
  let name? ← name?
  let variableDefinitions ← optionalBetween '(' ')' variableDefinition
  let _ ← directives
  pure { kind, name?, variableDefinitions, selections := ← selections }

def fragment : Parser Fragment := do
  let name ← Parser.name
  keyword "on"
  let type ← Parser.name
  let _ ← directives
  pure { name, type, selections := ← selections }

/-- An operation or a fragment. -/
def definition : Parser (Operation ⊕ Fragment) := do
  match ← peek with
  | some (.punctuator '{') =>
    pure (.inl {
      kind := .query, name? := none, variableDefinitions := [], selections := ← selections })
  | _ =>
    match ← name with
    | "query" => .inl <$> operation .query
    | "mutation" => .inl <$> operation .mutation
    | "subscription" => .inl <$> operation .subscription
    | "fragment" => .inr <$> fragment
    | _ => failure

namespace Request

def parse? (text : String) : Option Request :=
  (Parser.document? definition text).map fun definitions =>
    { operations := definitions.filterMap Sum.getLeft?
      fragments := definitions.filterMap Sum.getRight? }

end Request

end MappedQuery.Document
