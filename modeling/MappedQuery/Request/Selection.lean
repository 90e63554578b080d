import MappedQuery.Query.Basic
import MappedQuery.Request.Variables

/-!
# Selections as queries

`Request.toQuery` reads an operation of a request document as a query. Fields become selections,
an alias is kept where it differs from the name, fragments become queries narrowed to their types,
and the directives `@skip` and `@include` leave selections out. A fragment whose spreads lead back
to it is refused. Every fragment that is expanded is a new one, so there are no more levels of
spreads than there are fragments.
-/
namespace MappedQuery.Document

/-- What a directive says about whether its selection is taken, if it says anything. -/
def Directive.condition? (d : Directive) : Option Bool :=
  match d.name with
  | "skip" => some false
  | "include" => some true
  | _ => none

/-- Whether a selection under these directives is taken. -/
def isIncluded (vs : Variables) : List Directive → Except RequestFault Bool
  | [] => .ok true
  | d :: rest =>
    match d.condition? with
    | none => isIncluded vs rest
    | some expected => do
      match ← (d.arguments.find? (·.1 = "if")).mapM fun a => vs.substitute a.2 with
      | some (.boolean b) => if b = expected then isIncluded vs rest else pure false
      | _ => throw (.conditionMissing d.name)

mutual

/-- The query of a selection, none if it is left out; `expand` answers spreads. -/
def Selection.toQuery? (vs : Variables) (expand : String → Except RequestFault Query) :
    Selection → Except RequestFault (Option Query)
  | .field alias? name arguments directives selections => do
    if ← isIncluded vs directives then
      let bindings ← arguments.mapM fun a => do pure (Binding.mk a.1 (← vs.substitute a.2))
      let queries ← selectionQueries vs expand selections
      pure (some (.select name (alias?.filter (· ≠ name)) bindings (.grouped queries)))
    else pure none
  | .spread fragment directives => do
    if ← isIncluded vs directives then some <$> expand fragment else pure none
  | .inline type? directives selections => do
    if ← isIncluded vs directives then
      let child := Query.grouped (← selectionQueries vs expand selections)
      match type? with
      | some type => pure (some (.narrow type child))
      | none => pure (some child)
    else pure none

/-- The queries of the selections that are not left out. -/
def selectionQueries (vs : Variables) (expand : String → Except RequestFault Query) :
    List Selection → Except RequestFault (List Query)
  | [] => .ok []
  | s :: rest => do
    let query? ← s.toQuery? vs expand
    pure (query?.toList ++ (← selectionQueries vs expand rest))

end

namespace Request

/-- The query of a fragment that is spread inside the fragments `enclosing`, with at most `levels`
levels of spreads inside it. -/
def expand (r : Request) (vs : Variables) :
    Nat → List String → String → Except RequestFault Query
  | levels, enclosing, name =>
    match r.fragment? name with
    | none => .error (.unknownFragment name)
    | some f =>
      if name ∈ enclosing then .error (.fragmentCycle name)
      else
        match levels with
        | 0 => .error (.fragmentCycle name)
        | levels + 1 => do
          let inner := expand r vs levels (name :: enclosing)
          pure (.narrow f.type (.grouped (← selectionQueries vs inner f.selections)))

/-- The operation of a name, or the only one. -/
def operation (r : Request) : Option String → Except RequestFault Operation
  | some name =>
    match r.operations.find? (·.name? = some name) with
    | some o => .ok o
    | none => .error (.unknownOperation name)
  | none =>
    match r.operations with
    | [] => .error .noOperation
    | [o] => .ok o
    | _ => .error .ambiguousOperation

/-- The query of an operation. -/
def toQuery (r : Request) (operationName? : Option String) (variables? : Option Json) :
    Except RequestFault Query := do
  let o ← r.operation operationName?
  match o.kind with
  | .query =>
    let vs ← Variables.bind variables? o.variableDefinitions
    pure (.grouped (← selectionQueries vs (r.expand vs r.fragments.length []) o.selections))
  | .mutation => throw .mutation
  | .subscription => throw .subscription

end Request

end MappedQuery.Document
