import MappedQuery.Document.Operation
import MappedQuery.Problem.Fault
import MappedQuery.Value.Document

/-!
# Variables

An operation declares variables, and a request supplies values for them as members of a document.
A variable that is not supplied has its default; without one it is absent if its type is
nullable, and the request fails otherwise. Arguments are literals in which variables stand for
their values.
-/
namespace MappedQuery

/-- The values of variables; of several with one name the last counts. -/
abbrev Variables : Type := List (String × Value)

namespace Variables

def find? (vs : Variables) (name : String) : Option Value :=
  (vs.reverse.find? (·.1 = name)).map (·.2)

/-- The value of a variable of an operation. -/
def bindOne (supplied? : Option Json) (d : Document.VariableDefinition) :
    Except RequestFault Value :=
  match supplied?.bind (·.get? d.name), d.default? with
  | some json, _ => .ok (.ofJson json)
  | none, some v => .ok v
  | none, none => if d.type.isNullable then .ok .absent else .error (.missingVariable d.name)

/-- The values of the variables of an operation. -/
def bind (supplied? : Option Json) (ds : List Document.VariableDefinition) :
    Except RequestFault Variables :=
  ds.mapM fun d => do pure (d.name, ← bindOne supplied? d)

mutual

/-- A literal with the variables replaced by their values. -/
def substitute (vs : Variables) : Value → Except RequestFault Value
  | .reference name =>
    match vs.find? name with
    | some v => .ok v
    | none => .error (.undefinedVariable name)
  | .list values => .list <$> substituteElements vs values
  | .object members => .object <$> substituteMembers vs members
  | literal => .ok literal

def substituteElements (vs : Variables) : List Value → Except RequestFault (List Value)
  | [] => .ok []
  | v :: rest => do pure ((← substitute vs v) :: (← substituteElements vs rest))

def substituteMembers (vs : Variables) :
    List (String × Value) → Except RequestFault (List (String × Value))
  | [] => .ok []
  | (k, v) :: rest => do pure ((k, ← substitute vs v) :: (← substituteMembers vs rest))

end

end Variables

end MappedQuery
