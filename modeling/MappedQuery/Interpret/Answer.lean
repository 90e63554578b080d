import MappedQuery.Interpret.Reading
import MappedQuery.Problem.Outcome

/-!
# Answering a request

The roots of a compiled query are read one after the other, those of introspection from the
mapping that describes the schema. A root that fails is null in the data and is reported with
its key; the others are read all the same.
-/
namespace MappedQuery

/-- What the roots of a query add to the data, and what is reported of them. -/
structure RootResult where
  members : Members
  problems : List Problem

namespace RootResult

def empty : RootResult := ⟨[], []⟩

def ofMember (key : String) (value : Json) : RootResult := ⟨[(key, value)], []⟩

def ofFault (f : Fault) : RootResult := ⟨[], [f.toProblem]⟩

def append (a b : RootResult) : RootResult := ⟨a.members ++ b.members, a.problems ++ b.problems⟩

/-- A root under its key; null and reported if it failed. -/
def ofRoot (key : String) : Except Fault Json → RootResult
  | .ok value => ofMember key value
  | .error f => ⟨[(key, .null)], [{ f.toProblem with path := [key] }]⟩

end RootResult

namespace Mapping

/-- Reads a root that is delegated to another mapping; there is no object to join it with. -/
def readDelegatedRoot (m : Mapping) (s : Select) : Run Json :=
  match m.delegateTarget? [] m.schema.queryType s.name with
  | some target => target.readRoot m.schema.queryType s
  | none => throw (.missingRootMapping s.name)

/-- Reads one root. -/
def answerRoot (m : Mapping) : Query → StateM Sql.Session RootResult
  | .select name alias? bindings child =>
    let s : Select := ⟨name, alias?, bindings, child⟩
    if name = "__typename" then
      pure (.ofMember s.resultName (.string m.schema.queryType))
    else do pure (.ofRoot s.resultName (← (m.readRoot m.schema.queryType s).run))
  | .component _ _ child =>
    match child with
    | .select name alias? bindings below =>
      let s : Select := ⟨name, alias?, bindings, below⟩
      do pure (.ofRoot s.resultName (← (m.readDelegatedRoot s).run))
    | other => pure (.ofFault (.interpreter (.malformedComponent other)))
  | other => pure (.ofFault (.interpreter (.unexpectedRoot other)))

/-- Reads roots one after the other. -/
def answerRoots (m : Mapping) : List Query → StateM Sql.Session RootResult
  | [] => pure .empty
  | q :: rest => do
    let first ← m.answerRoot q
    pure (first.append (← m.answerRoots rest))

end Mapping

namespace Query

/-- The roots of introspection go to its own mapping. -/
def answerBranch (m introspection : Mapping) : Query → StateM Sql.Session RootResult
  | introspect child => introspection.answerRoots child.members
  | q => m.answerRoots q.members

def answerBranches (m introspection : Mapping) : List Query → StateM Sql.Session RootResult
  | [] => pure .empty
  | q :: rest => do
    let first ← q.answerBranch m introspection
    pure (first.append (← answerBranches m introspection rest))

/-- The data of a compiled query and the problems met on the way. -/
def answer (m introspection : Mapping) (q : Query) : StateM Sql.Session (Outcome Json) := do
  let result ← answerBranches m introspection q.members
  pure (.attach (Json.ofMembers result.members) result.problems)

end Query

end MappedQuery
