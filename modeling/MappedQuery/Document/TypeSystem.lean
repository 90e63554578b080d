import MappedQuery.Document.Grammar
import MappedQuery.Schema.Basic

/-!
# Schema documents

A schema document declares types, the type that requests start from, directives and extensions.
`Declaration.parse?` reads the declarations in order; descriptions and directives are read and
dropped, and extensions and directive definitions declare nothing here.
-/
namespace MappedQuery.Document

inductive Declaration where
  /-- The root types; only that of queries matters. -/
  | roots (query? : Option String)
  | type (definition : TypeDefinition)
  /-- An extension or a directive definition. -/
  | other
deriving Repr

open MappedQuery.Document.Parser

/-- A description, if one comes next. -/
def description : Parser Unit := do
  match ← peek with
  | some (.string _) => do
    let _ ← next
    pure ()
  | _ => pure ()

def inputDefinition : Parser InputDefinition := do
  description
  let name ← name
  punctuator ':'
  let type ← typeRef Token.deepest
  let hasDefault ← skip (.punctuator '=')
  let default? ← if hasDefault then some <$> value true Token.deepest else pure none
  let _ ← directives
  pure { name, type, default? }

def fieldDefinition : Parser FieldDefinition := do
  description
  let name ← name
  let arguments ← optionalBetween '(' ')' inputDefinition
  punctuator ':'
  let type ← typeRef Token.deepest
  let _ ← directives
  pure { name, arguments, type }

/-- The interfaces after `implements`, none without it. -/
def implementedInterfaces : Parser (List String) := do
  if ← skip (.name "implements") then
    let _ ← skip (.punctuator '&')
    separated '&' name
  else pure []

/-- The members of a union after its sign, none without it. -/
def unionMembers : Parser (List String) := do
  if ← skip (.punctuator '=') then
    let _ ← skip (.punctuator '|')
    separated '|' name
  else pure []

def enumValue : Parser String := do
  description
  let name ← name
  let _ ← directives
  pure name

/-- A type definition after its keyword, and whether it holds anything that may extend a type. -/
def typeDefinition (word : String) : Parser (TypeDefinition × Bool) := do
  match word with
  | "scalar" => do
    let name ← name
    let directives ← directives
    pure (.scalar name, !directives.isEmpty)
  | "type" => do
    let name ← name
    let interfaces ← implementedInterfaces
    let directives ← directives
    let fields ← optionalBetween '{' '}' fieldDefinition
    pure (.object { name, fields, interfaces },
      !(interfaces.isEmpty && directives.isEmpty && fields.isEmpty))
  | "interface" => do
    let name ← name
    let interfaces ← implementedInterfaces
    let directives ← directives
    let fields ← optionalBetween '{' '}' fieldDefinition
    pure (.interface { name, fields, interfaces }, !(directives.isEmpty && fields.isEmpty))
  | "union" => do
    let name ← name
    let directives ← directives
    let members ← unionMembers
    pure (.union name members, !(directives.isEmpty && members.isEmpty))
  | "enum" => do
    let name ← name
    let directives ← directives
    let values ← optionalBetween '{' '}' enumValue
    pure (.enum name values, !(directives.isEmpty && values.isEmpty))
  | "input" => do
    let name ← name
    let directives ← directives
    let fields ← optionalBetween '{' '}' inputDefinition
    pure (.input { name, fields }, !(directives.isEmpty && fields.isEmpty))
  | _ => failure

/-- The kind of an operation and its root type. -/
def rootType : Parser (String × String) := do
  let operation ← name
  if ["query", "mutation", "subscription"].contains operation then
    punctuator ':'
    pure (operation, ← name)
  else failure

/-- The root types after the keyword, each kind of operation at most once. -/
def rootTypes : Parser Declaration := do
  let _ ← directives
  punctuator '{'
  let roots ← Parser.closedBy '}' rootType
  if (roots.map (·.1)).eraseDups.length = roots.length then
    pure (.roots ((roots.find? (·.1 = "query")).map (·.2)))
  else failure

/-- The places where a directive may stand. -/
def directiveLocations : List String :=
  [ "QUERY", "MUTATION", "SUBSCRIPTION", "FIELD", "FRAGMENT_DEFINITION", "FRAGMENT_SPREAD",
    "INLINE_FRAGMENT", "VARIABLE_DEFINITION", "SCHEMA", "SCALAR", "OBJECT", "FIELD_DEFINITION",
    "ARGUMENT_DEFINITION", "INTERFACE", "UNION", "ENUM", "ENUM_VALUE", "INPUT_OBJECT",
    "INPUT_FIELD_DEFINITION" ]

def directiveLocation : Parser Unit := do
  if directiveLocations.contains (← name) then pure () else failure

def directiveDefinition : Parser Declaration := do
  punctuator '@'
  let _ ← name
  let _ ← optionalBetween '(' ')' inputDefinition
  let _ ← skip (.name "repeatable")
  keyword "on"
  let barred ← skip (.punctuator '|')
  match ← peek with
  | some (.name _) => do
    let _ ← separated '|' directiveLocation
    pure .other
  | _ => if barred then failure else pure .other

def declaration : Parser Declaration := do
  match ← peek with
  | some (.string _) => do
    description
    match ← name with
    | "directive" => directiveDefinition
    | word => do
      let (definition, _) ← typeDefinition word
      pure (.type definition)
  | _ =>
    match ← name with
    | "schema" => rootTypes
    | "extend" => do
      let (_, extending) ← typeDefinition (← name)
      if extending then pure .other else failure
    | "directive" => directiveDefinition
    | word => do
      let (definition, _) ← typeDefinition word
      pure (.type definition)

namespace Declaration

def parse? (text : String) : Option (List Declaration) := Parser.document? declaration text

end Declaration

end MappedQuery.Document
