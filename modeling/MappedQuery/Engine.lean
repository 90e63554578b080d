import MappedQuery.Interpret.Answer
import MappedQuery.Introspection
import MappedQuery.Problem.Response
import MappedQuery.Request.Delegation
import MappedQuery.Request.Elaboration
import MappedQuery.Request.Selection

/-!
# The engine

An engine answers requests over one mapping. A request is compiled in three steps, its text to a
query, the query to an elaborated one, and delegated fields to components; what can be compiled
is run, and the problems of both are reported together. A request of which nothing is left but
problems is not run and has no data.
-/
namespace MappedQuery

/-- A request to an engine. -/
structure EngineRequest where
  text : String
  operationName? : Option String
  /-- A document whose members are the values of variables. -/
  variables? : Option Json
  /-- Whether the schema may be asked for. -/
  allowIntrospection : Bool
deriving Repr

structure Engine where
  mapping : Mapping
  introspection : Mapping

namespace Engine

def ofMapping (m : Mapping) : Engine := ⟨m, Introspection.mapping m.schema⟩

/-- The query of a request text before it meets a schema. -/
def read (r : EngineRequest) : Except Fault Query :=
  match Document.Request.parse? r.text with
  | none => .error (.request .malformed)
  | some document =>
    match document.toQuery r.operationName? r.variables? with
    | .ok q => .ok q
    | .error cause => .error (.request cause)

/-- Elaborates a query and makes components of its delegated fields. -/
def compileQuery (e : Engine) (allowIntrospection : Bool) (q : Query) : Outcome Query :=
  (q.elaborateRoots e.mapping e.introspection allowIntrospection).map (·.delegateRoots e.mapping)

def compile (e : Engine) (r : EngineRequest) : Outcome Query :=
  (Outcome.ofExcept (read r)).andThen (e.compileQuery r.allowIntrospection)

def run (e : Engine) (q : Query) : StateM Sql.Session (Outcome Json) :=
  q.answer e.mapping e.introspection

/-- Runs what was compiled, unless nothing but problems is left. -/
def runCompiled (e : Engine) (compiled : Outcome Query) :
    StateM Sql.Session (Outcome Json) :=
  match compiled.value? with
  | none => pure ⟨none, compiled.problems⟩
  | some q =>
    if q.isEmpty && !compiled.problems.isEmpty then pure ⟨none, compiled.problems⟩
    else do
      let answered ← e.run q
      pure ⟨answered.value?, compiled.problems ++ answered.problems⟩

/-- The response to a request. -/
def execute (e : Engine) (r : EngineRequest) : StateM Sql.Session Response :=
  Response.ofOutcome <$> e.runCompiled (e.compile r)

end Engine

end MappedQuery
