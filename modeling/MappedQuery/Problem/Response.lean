import MappedQuery.Problem.Outcome
import MappedQuery.Json.Basic

/-!
# Responses

A response has the data of an outcome, if there is any, and the problems as errors, if there are
any. The kind of a problem is not reported, and its path only if it has one.
-/
namespace MappedQuery

namespace Problem

def toJson (p : Problem) : Json :=
  .object (("message", .string p.message) ::
    if p.path.isEmpty then [] else [("path", .array (p.path.map .string))])

end Problem

structure Response where
  data? : Option Json
  errors : List Problem
deriving Repr

namespace Response

def ofOutcome (o : Outcome Json) : Response := ⟨o.value?, o.problems⟩

def ofProblem (p : Problem) : Response := ⟨none, [p]⟩

def addError (r : Response) (p : Problem) : Response := { r with errors := r.errors ++ [p] }

def toJson (r : Response) : Json :=
  .object ((r.data?.map fun d => ("data", d)).toList ++
    if r.errors.isEmpty then [] else [("errors", .array (r.errors.map Problem.toJson))])

end Response

end MappedQuery
