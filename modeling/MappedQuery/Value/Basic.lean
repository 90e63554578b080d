import MappedQuery.Number.Double

/-!
# Values

A `Value` is what a request binds to an argument, what a predicate compares with and what a
leaf of a result holds. A value that was not supplied (`absent`) differs from one that was
supplied as `null`, and text, identifiers and enumeration names are different kinds with the
same content.
-/
namespace MappedQuery

inductive Value where
  /-- Not supplied: a default applies. -/
  | absent
  /-- Supplied as null. -/
  | null
  | int (n : Int64)
  | float (x : Double)
  | string (s : String)
  | boolean (b : Bool)
  | id (s : String)
  | enum (name : String)
  | list (values : List Value)
  /-- An input object, its members in the order given. -/
  | object (members : List (String × Value))
  /-- A reference `$name` that is not substituted yet. -/
  | reference (name : String)
deriving Repr, Inhabited

/-- A value of one kind was asked for as another. -/
structure ConversionFault where
  source : String
  target : String
deriving DecidableEq, Repr

namespace ConversionFault

def message (f : ConversionFault) : String :=
  "Unable to convert " ++ f.source ++ " to " ++ f.target

end ConversionFault

namespace Value

/-- The name of a value's kind in messages. -/
def kind : Value → String
  | absent => "absent"
  | null => "null"
  | int _ => "Int"
  | float _ => "Float"
  | string _ => "String"
  | boolean _ => "Boolean"
  | id _ => "ID"
  | enum _ => "enum"
  | list _ => "list"
  | object _ => "input object"
  | reference _ => "variable"

def isAbsent : Value → Bool
  | absent => true
  | _ => false

def isNull : Value → Bool
  | null => true
  | _ => false

/-- Whether the value carries no data: it is absent or null. -/
def isEmpty (v : Value) : Bool := v.isAbsent || v.isNull

/-- The content of the text-like kinds. -/
def asString? : Value → Option String
  | string s => some s
  | id s => some s
  | enum s => some s
  | _ => none

def asInt? : Value → Option Int64
  | int n => some n
  | _ => none

/-- The number of a numeric kind, a whole one rounded to the nearest double. -/
def asDouble? : Value → Option Double
  | float x => some x
  | int n => some (Double.ofInt n.toInt)
  | _ => none

def asBool? : Value → Option Bool
  | boolean b => some b
  | _ => none

def asList? : Value → Option (List Value)
  | list values => some values
  | _ => none

def asObject? : Value → Option (List (String × Value))
  | object members => some members
  | _ => none

/-- The first member of an input object with this name. -/
def get? (name : String) (v : Value) : Option Value :=
  v.asObject?.bind fun members => (members.find? (·.1 = name)).map (·.2)

def toInt (v : Value) : Except ConversionFault Int64 :=
  match v.asInt? with
  | some n => .ok n
  | none => .error ⟨v.kind, "i64"⟩

def toText (v : Value) : Except ConversionFault String :=
  match v.asString? with
  | some s => .ok s
  | none => .error ⟨v.kind, "String"⟩

def toBool (v : Value) : Except ConversionFault Bool :=
  match v.asBool? with
  | some b => .ok b
  | none => .error ⟨v.kind, "bool"⟩

@[simp] theorem isEmpty_absent : isEmpty absent = true := rfl

@[simp] theorem isEmpty_null : isEmpty null = true := rfl

theorem isAbsent_iff {v : Value} : v.isAbsent = true ↔ v = absent := by
  cases v <;> simp [isAbsent]

theorem isEmpty_iff (v : Value) : v.isEmpty = true ↔ v = absent ∨ v = null := by
  cases v <;> simp [isEmpty, isAbsent, isNull]

end Value

end MappedQuery
