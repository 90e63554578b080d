import MappedQuery.Mapping.View
import MappedQuery.Value.Document

/-!
# Rules for mappings

Building blocks for what a mapping declares: computations over an object, joins of delegated
fields, encoders of leaf values, and elaborators, which are steps that wrap the child of a
selection one around the other.
-/
namespace MappedQuery

namespace Computation

def const (v : Value) : Computation := fun _ => .ok v

def field (name : String) : Computation := fun object => object.leaf name

/-- The value of a field, null if it has none. -/
def nullableField (name : String) : Computation := fun object => do
  pure ((← object.nullableLeaf name).getD .null)

def attributeOf (name : String) : Computation := fun object => object.attributeValue name

/-- A value inside a longer text: the content of text, the display of all else. -/
def textOf (v : Value) : String := v.asString?.getD v.display

/-- The texts of the parts one after the other. -/
def concat (parts : List Computation) : Computation := fun object => do
  let values ← parts.mapM fun part => part object
  pure (.string (String.join (values.map textOf)))

def list (parts : List Computation) : Computation := fun object => do
  pure (.list (← parts.mapM fun part => part object))

def fail (text : String) : Computation := fun _ => .error (.interpreter (.custom text))

def hasField (name : String) : Computation := fun object => .ok (.boolean (object.hasField name))

def hasAttribute (name : String) : Computation := fun object =>
  .ok (.boolean (object.hasAttribute name))

def narrowsTo (type : String) : Computation := fun object =>
  .ok (.boolean (object.narrowsTo type))

def concreteType : Computation := fun object => do pure (.string (← object.concreteType))

def path : Computation := fun object => .ok (.string (pathText object.path))

def type : Computation := fun object => .ok (.string object.type.display)

def count (name : String) : Computation := fun object => do
  pure (.int (Int64.ofNat (← object.count name)))

end Computation

namespace JoinRule

/-- The selection as it is. -/
def trivial : JoinRule := fun _ query => .ok query

/-- The selection with another child; other queries stay. -/
def onChild (f : ObjectView → Query → Except Fault Query) : JoinRule := fun object query =>
  match query with
  | .select name alias? bindings child => do
    pure (.select name alias? bindings (← f object child))
  | other => .ok other

/-- The elements whose fields equal values of the object, or the only one of them. -/
def onEqual (keys : List (Computation × String)) (unique : Bool) : JoinRule :=
  onChild fun object child => do
    let equalities ← keys.mapM fun (value, field) => do
      pure (Predicate.eq (Term.field field) (.const (← value object)))
    let filtered := Query.filter (Predicate.all equalities) child
    pure (if unique then .unique filtered else filtered)

def fail (text : String) : JoinRule := fun _ _ => .error (.interpreter (.custom text))

/-- The selection of another field. -/
def rename (name : String) : JoinRule := fun _ query =>
  match query with
  | .select _ alias? bindings child => .ok (.select name alias? bindings child)
  | other => .ok other

/-- What stands below the selection. -/
def child : JoinRule := fun _ query =>
  match query with
  | .select _ _ _ child => .ok child
  | other => .ok other

/-- The selection with arguments taken from the object. -/
def bind (arguments : List (String × Computation)) : JoinRule := fun object query => do
  let bindings ← arguments.mapM fun (name, value) => do
    pure (Binding.mk name (← value object))
  match query with
  | .select name alias? _ child => pure (.select name alias? bindings child)
  | other => pure other

end JoinRule

namespace Encoder

def suffix (text : String) : Encoder := fun v => .ok (.string (v.asString?.getD "" ++ text))

def kind : Encoder := fun v => .ok (.string v.kind)

/-- An object around the document of the value. -/
def wrap (key : String) : Encoder := fun v => .ok (.object [(key, v.toJson)])

def fail (text : String) : Encoder := fun _ => .error (.interpreter (.custom text))

end Encoder

namespace Elaborator

/-- A step around the child of a selection. `given?` names an argument without which, or with a
false one, the step is left out. -/
inductive Step where
  /-- The first elements, as many as an argument says. -/
  | limit (argument : String)
  | limitTo (count : Nat)
  | order (by_ : Select → List OrderSelection) (given? : Option String)
  | filter (predicate : Select → Predicate) (given? : Option String)
  | unique (given? : Option String)
  | fail (text : String) (given? : Option String)
  /-- Another query instead of the selection. -/
  | replace (query : Select → Query)

/-- Whether a step with this condition is taken. -/
def isGiven (s : Select) : Option String → Bool
  | none => true
  | some name =>
    match s.supplied? name with
    | some (.boolean false) => false
    | some _ => true
    | none => false

/-- The child of a selection below its steps, the first of them innermost. -/
def wrapChild (s : Select) : List Step → Query → Except Fault Query
  | [], child => .ok { s with child }.toQuery
  | step :: rest, child =>
    match step with
    | .limit argument =>
      match s.supplied? argument with
      | none => wrapChild s rest child
      | some (.int n) =>
        if 0 ≤ n.toInt then wrapChild s rest (.limit n.toInt.toNat child)
        else .error (.elaboration (.custom "'limit' must not be negative"))
      | some _ => .error (.elaboration (.custom "'limit' must not be negative"))
    | .limitTo count => wrapChild s rest (.limit count child)
    | .order by_ given? =>
      wrapChild s rest (if isGiven s given? then .orderBy (by_ s) child else child)
    | .filter predicate given? =>
      wrapChild s rest (if isGiven s given? then .filter (predicate s) child else child)
    | .unique given? => wrapChild s rest (if isGiven s given? then .unique child else child)
    | .fail text given? =>
      if isGiven s given? then .error (.elaboration (.custom text)) else wrapChild s rest child
    | .replace query => .ok (query s)

/-- The elaborator that takes these steps. -/
def ofSteps (steps : List Step) : Elaborator := fun s => wrapChild s steps s.child

end Elaborator

end MappedQuery
