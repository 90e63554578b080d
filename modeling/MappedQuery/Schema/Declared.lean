import MappedQuery.Schema.Basic
import MappedQuery.Document.TypeSystem

/-!
# Declared schemas

`Schema.parse` reads a schema document. A type may be declared once, though a built-in scalar may
be declared anew and keeps its place; every type that a field, an argument, an interface list or
a union refers to must be declared, and so must the query type, which is `Query` unless the
document names another.
-/
namespace MappedQuery

/-- Why a schema document is refused. -/
inductive SchemaFault where
  | malformed
  | duplicateType (name : String)
  | unknownType (owner referenced : String)
  | missingQueryType (name : String)
deriving DecidableEq, Repr

namespace SchemaFault

def message : SchemaFault → String
  | malformed => "Failed to parse schema"
  | duplicateType name => "Type '" ++ name ++ "' is declared more than once"
  | unknownType owner referenced =>
    "Type '" ++ referenced ++ "' referenced by '" ++ owner ++ "' is not declared"
  | missingQueryType name => "The query root type '" ++ name ++ "' is not declared"

end SchemaFault

namespace TypeDefinition

/-- The types that a definition refers to, each with the place that does. -/
def references (d : TypeDefinition) : List (String × String) :=
  match d with
  | object o | interface o =>
    o.interfaces.map (o.name, ·) ++
      o.fields.flatMap fun f =>
        let owner := o.name ++ "." ++ f.name
        (owner, f.type.underlying) :: f.arguments.map fun a => (owner, a.type.underlying)
  | union name members => members.map (name, ·)
  | input i => i.fields.map fun f => (i.name ++ "." ++ f.name, f.type.underlying)
  | scalar _ | enum _ _ => []

end TypeDefinition

namespace Schema

/-- The types with one more; a built-in scalar of the same name gives up its place to it. -/
def declare (types : List TypeDefinition) (d : TypeDefinition) :
    Except SchemaFault (List TypeDefinition) :=
  if types.any (·.name = d.name) then
    if builtinScalars.contains d.name then
      .ok (types.map fun t => if t.name = d.name then d else t)
    else .error (.duplicateType d.name)
  else .ok (types ++ [d])

/-- Refuses a schema that refers to a type it does not have. -/
def checkReferences (s : Schema) : Except SchemaFault Schema :=
  if !s.hasType s.queryType then .error (.missingQueryType s.queryType)
  else
    match (s.types.flatMap (·.references)).find? fun r => !s.hasType r.2 with
    | some (owner, referenced) => .error (.unknownType owner referenced)
    | none => .ok s

/-- The query type that the last of the declared roots names. -/
def declaredQueryType (declarations : List Document.Declaration) : String :=
  let named := declarations.filterMap fun
    | .roots query? => some query?
    | _ => none
  (named.getLast?.bind id).getD "Query"

def ofDeclarations (declarations : List Document.Declaration) : Except SchemaFault Schema := do
  let definitions := declarations.filterMap fun
    | .type d => some d
    | _ => none
  let types ← definitions.foldlM declare (builtinScalars.map .scalar)
  checkReferences { types, queryType := declaredQueryType declarations }

/-- The schema that a document declares. -/
def parse (text : String) : Except SchemaFault Schema :=
  match Document.Declaration.parse? text with
  | some declarations => ofDeclarations declarations
  | none => .error .malformed

/-- A text declares what is read of its tokens. -/
theorem parse_of_tokens {text : String} {tokens : List Document.Token}
    {declarations : List Document.Declaration} (htokens : Document.Token.scan? text = some tokens)
    (hread : (Document.Parser.itemsToEnd Document.declaration tokens.length).run tokens =
      some (declarations, [])) (hsome : declarations.isEmpty = false) :
    parse text = ofDeclarations declarations := by
  have hparsed : Document.Declaration.parse? text = some declarations := by
    rw [Document.Declaration.parse?, Document.Parser.document?, htokens]
    simp only [Option.bind_eq_bind, Option.bind_some, hread]
    rw [hsome]
    rfl
  rw [parse, hparsed]

end Schema

end MappedQuery
