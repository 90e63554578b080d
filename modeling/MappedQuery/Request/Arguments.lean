import MappedQuery.Problem.Fault
import MappedQuery.Schema.Basic

/-!
# Arguments

The arguments of a selection are bound against those that the field declares: one value for each
of them, in the order of the declaration, the supplied one as a value of the declared type, else
the default, else absent if the type is nullable. The fields of input objects are bound in the
same way. A list type takes a single value as a list of one.

An argument that is bound is taken out of the supplied ones, and the last of them moves to its
place; only if a name is supplied twice does this show.
-/
namespace MappedQuery

/-- What a value becomes at a type. -/
abbrev Coercion : Type := TypeRef → Except ArgumentFault Value

/-- A supplied value under a name. -/
structure Supplied where
  name : String
  isAbsent : Bool
  coerce : Coercion

/-- The first item that passes a test, and the other items with the last of them in its place. -/
def extract? (test : α → Bool) (items : List α) : Option (α × List α) :=
  match items.findIdx? test, items.getLast? with
  | some i, some last => items[i]?.map fun a => (a, (items.set i last).dropLast)
  | _, _ => none

namespace InputDefinition

/-- The value of an input that is not supplied. -/
def unsupplied (i : InputDefinition) (missing : String → ArgumentFault) :
    Except ArgumentFault Value :=
  match i.default? with
  | some v => .ok v
  | none => if i.type.isNullable then .ok .absent else .error (missing i.name)

end InputDefinition

/-- A value for each declared input, in order. -/
def bindInputs (missing : String → ArgumentFault) :
    List InputDefinition → List Supplied → Except ArgumentFault (List (String × Value))
  | [], _ => .ok []
  | i :: rest, supplied =>
    match extract? (·.name = i.name) supplied with
    | none => do
      let v ← i.unsupplied missing
      pure ((i.name, v) :: (← bindInputs missing rest supplied))
    | some (given, others) => do
      let v ← if given.isAbsent then i.unsupplied missing else given.coerce i.type
      pure ((i.name, v) :: (← bindInputs missing rest others))

namespace Coercion

/-- A value as one of a scalar type; the types that are not built in take every value. -/
def scalar (name : String) (v : Value) : Except ArgumentFault Value :=
  match name, v with
  | "Int", .int n => .ok (.int n)
  | "Float", .int n => .ok (.float (Double.ofInt n.toInt))
  | "Float", .float x => .ok (.float x)
  | "String", .string s => .ok (.string s)
  | "Boolean", .boolean b => .ok (.boolean b)
  | "ID", .string s => .ok (.id s)
  | "ID", .id s => .ok (.id s)
  | "ID", .int n => .ok (.id (toString n.toInt))
  | name, v =>
    if Schema.builtinScalars.contains name then .error (.wrongKind name v.kind) else .ok v

/-- A value as one of an enumeration type. -/
def enum (name : String) (values : List String) (v : Value) : Except ArgumentFault Value :=
  match v with
  | .enum s => if values.contains s then .ok (.enum s) else .error (.notInEnum v name)
  | .string s => if values.contains s then .ok (.enum s) else .error (.notInEnum v name)
  | _ => .error (.notInEnum v name)

/-- The members of an input object as the fields of its type. -/
def inputObject (o : InputObjectDefinition) (members : List Supplied) :
    Except ArgumentFault Value :=
  match (members.map (·.name)).filter fun n => (o.field? n).isNone with
  | [] => .object <$> bindInputs (.missingField · o.name) o.fields members
  | unknown => .error (.unknownFields unknown o.name)

/-- A value as one of a named type. -/
def named (s : Schema) (name : String) (v : Value) (members : List Supplied) :
    Except ArgumentFault Value :=
  match s.find? name with
  | some (.scalar name) => scalar name v
  | some (.enum name values) => enum name values v
  | some (.input o) =>
    match v with
    | .object _ => inputObject o members
    | _ => .error (.notAnInputObject o.name)
  | _ => .error (.notAnInputType name)

/-- A value with these elements and members as one of a type. -/
def withParts (s : Schema) (v : Value) (elements : List Coercion) (members : List Supplied) :
    Coercion
  | .nullable inner =>
    match v with
    | .null => .ok .null
    | _ => withParts s v elements members inner
  | .list item =>
    match v with
    | .null => .error (.nullValue (.list item))
    | .absent => .ok .absent
    | .list _ => .list <$> elements.mapM fun e => e item
    | _ => do pure (.list [← withParts s v elements members item])
  | .named name =>
    match v with
    | .null => .error (.nullValue (.named name))
    | .absent => .ok .absent
    | _ => named s name v members

end Coercion

namespace Value

mutual

/-- What a value becomes at the types of a schema. -/
def coerce (s : Schema) : Value → Coercion
  | list values => Coercion.withParts s (list values) (coerceElements s values) []
  | object members => Coercion.withParts s (object members) [] (coerceMembers s members)
  | v => Coercion.withParts s v [] []

def coerceElements (s : Schema) : List Value → List Coercion
  | [] => []
  | v :: rest => coerce s v :: coerceElements s rest

def coerceMembers (s : Schema) : List (String × Value) → List Supplied
  | [] => []
  | (k, v) :: rest => ⟨k, v.isAbsent, coerce s v⟩ :: coerceMembers s rest

end

end Value

namespace FieldDefinition

/-- The arguments of a selection as the field declares them. -/
def bindArguments (s : Schema) (f : FieldDefinition) (bindings : List Binding) :
    Except ArgumentFault (List Binding) :=
  match (bindings.map (·.name)).filter fun n => (f.argument? n).isNone with
  | [] => do
    let supplied := bindings.map fun b => Supplied.mk b.name b.value.isAbsent (b.value.coerce s)
    let values ← bindInputs .missingArgument f.arguments supplied
    pure (values.map fun (name, value) => ⟨name, value⟩)
  | unknown => .error (.unknownArguments unknown)

end FieldDefinition

end MappedQuery
