import MappedQuery.Schema.TypeRef
import MappedQuery.Value.Basic

/-!
# Schemas

A `Schema` is the type system a mapping is declared against: its type definitions, in order and
with one definition for a name, and the name of the type that requests start from. Five scalars
are part of every schema.
-/
namespace MappedQuery

/-- An argument of a field, or a field of an input object. -/
structure InputDefinition where
  name : String
  type : TypeRef
  default? : Option Value
deriving Repr, Inhabited

namespace InputDefinition

/-- An input must be supplied if it is neither nullable nor has a default. -/
def isRequired (i : InputDefinition) : Bool := !i.type.isNullable && i.default?.isNone

end InputDefinition

structure FieldDefinition where
  name : String
  arguments : List InputDefinition
  type : TypeRef
deriving Repr, Inhabited

namespace FieldDefinition

def argument? (f : FieldDefinition) (name : String) : Option InputDefinition :=
  f.arguments.find? (·.name = name)

end FieldDefinition

/-- What object types and interfaces declare. -/
structure ObjectDefinition where
  name : String
  fields : List FieldDefinition
  interfaces : List String
deriving Repr, Inhabited

structure InputObjectDefinition where
  name : String
  fields : List InputDefinition
deriving Repr, Inhabited

namespace InputObjectDefinition

def field? (o : InputObjectDefinition) (name : String) : Option InputDefinition :=
  o.fields.find? (·.name = name)

end InputObjectDefinition

inductive TypeDefinition where
  | scalar (name : String)
  | object (definition : ObjectDefinition)
  | interface (definition : ObjectDefinition)
  | union (name : String) (members : List String)
  | enum (name : String) (values : List String)
  | input (definition : InputObjectDefinition)
deriving Repr, Inhabited

namespace TypeDefinition

def name : TypeDefinition → String
  | scalar name => name
  | object o => o.name
  | interface o => o.name
  | union name _ => name
  | enum name _ => name
  | input i => i.name

/-- The name that introspection gives the kind of a type. -/
def kind : TypeDefinition → String
  | scalar _ => "SCALAR"
  | object _ => "OBJECT"
  | interface _ => "INTERFACE"
  | union _ _ => "UNION"
  | enum _ _ => "ENUM"
  | input _ => "INPUT_OBJECT"

def isLeaf : TypeDefinition → Bool
  | scalar _ => true
  | enum _ _ => true
  | _ => false

def isAbstract : TypeDefinition → Bool
  | interface _ => true
  | union _ _ => true
  | _ => false

def isObject : TypeDefinition → Bool
  | object _ => true
  | _ => false

/-- The fields of object types and interfaces. -/
def fields : TypeDefinition → List FieldDefinition
  | object o => o.fields
  | interface o => o.fields
  | _ => []

/-- The interfaces that object types and interfaces implement. -/
def interfaces : TypeDefinition → List String
  | object o => o.interfaces
  | interface o => o.interfaces
  | _ => []

/-- The members of a union. -/
def members : TypeDefinition → List String
  | union _ members => members
  | _ => []

def asInput? : TypeDefinition → Option InputObjectDefinition
  | input i => some i
  | _ => none

end TypeDefinition

structure Schema where
  types : List TypeDefinition
  queryType : String
deriving Repr, Inhabited

namespace Schema

/-- The scalars of every schema. -/
def builtinScalars : List String := ["Int", "Float", "String", "Boolean", "ID"]

/-- The schema of the built-in scalars and these types. -/
def ofTypes (types : List TypeDefinition) (queryType : String) : Schema where
  types := builtinScalars.map .scalar ++ types
  queryType := queryType

def find? (s : Schema) (name : String) : Option TypeDefinition :=
  s.types.find? (·.name = name)

def hasType (s : Schema) (name : String) : Bool := (s.find? name).isSome

def isLeaf (s : Schema) (name : String) : Bool := (s.find? name).any (·.isLeaf)

def isAbstract (s : Schema) (name : String) : Bool := (s.find? name).any (·.isAbstract)

/-- The interfaces that a type implements directly. -/
def interfaces (s : Schema) (name : String) : List String :=
  ((s.find? name).map (·.interfaces)).getD []

/-- The members of a union, none for other types. -/
def unionMembers (s : Schema) (name : String) : List String :=
  ((s.find? name).map (·.members)).getD []

theorem name_of_find? {s : Schema} {name : String} {d : TypeDefinition}
    (h : s.find? name = some d) : d.name = name := by
  simpa using List.find?_some h

end Schema

end MappedQuery
