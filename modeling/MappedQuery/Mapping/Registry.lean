import MappedQuery.Mapping.Source
import MappedQuery.Mapping.View
import MappedQuery.Schema.Lookup
import MappedQuery.Value.Document

/-!
# Registries

A registry says, type by type, how fields resolve: from the data of a root field, from the source
of an object, by a computation, or by another mapping. A type may be mapped differently depending
on the path it is reached through. `φ` are the fields of the source, `ρ` the data of root fields
and `μ` the mappings that fields can be delegated to. Look-ups take the first declaration that
fits and fall back on the interfaces of a type.
-/
namespace MappedQuery

/-- A field that another mapping answers. -/
structure Delegate (μ : Type) where
  name : String
  target : μ
  join : JoinRule

/-- A field computed from the object it belongs to. -/
structure ComputedField where
  name : String
  /-- The siblings whose values the computation reads. -/
  required : List String
  compute : Computation

inductive FieldMapping (φ ρ μ : Type) where
  | root (name : String) (data : ρ)
  | delegate (d : Delegate μ)
  | computed (c : ComputedField) (hidden : Bool)
  /-- A computed value that is not part of the schema and read as an attribute. -/
  | computedAttribute (c : ComputedField)
  | source (field : φ)

namespace FieldMapping

variable {φ ρ μ : Type} [SourceField φ]

def name : FieldMapping φ ρ μ → String
  | root name _ => name
  | delegate d => d.name
  | computed c _ => c.name
  | computedAttribute c => c.name
  | source f => SourceField.name f

/-- Whether the field is left out of the schema. -/
def hidden : FieldMapping φ ρ μ → Bool
  | root .. | delegate _ => false
  | computed _ hidden => hidden
  | computedAttribute _ => true
  | source f => SourceField.hidden f

def required : FieldMapping φ ρ μ → List String
  | root .. | delegate _ | source _ => []
  | computed c _ => c.required
  | computedAttribute c => c.required

def source? : FieldMapping φ ρ μ → Option φ
  | source f => some f
  | _ => none

end FieldMapping

structure ObjectMapping (φ ρ μ : Type) where
  type : String
  fields : List (FieldMapping φ ρ μ)

namespace ObjectMapping

def field? {φ ρ μ : Type} [SourceField φ] (m : ObjectMapping φ ρ μ) (name : String) :
    Option (FieldMapping φ ρ μ) :=
  m.fields.find? (·.name = name)

end ObjectMapping

inductive TypeMapping (φ ρ μ : Type) where
  | object (mapping : ObjectMapping φ ρ μ)
  | leaf (type : String) (encode : Encoder)
  /-- One mapping for each ending of the path to the object. -/
  | byPath (type : String) (entries : List (List String × ObjectMapping φ ρ μ))

namespace TypeMapping

def type {φ ρ μ : Type} : TypeMapping φ ρ μ → String
  | object m => m.type
  | leaf type _ => type
  | byPath type _ => type

end TypeMapping

structure Registry (φ ρ μ : Type) where
  schema : Schema
  types : List (TypeMapping φ ρ μ)
  /-- By type and field; of several the last declared counts. -/
  elaborators : List ((String × String) × Elaborator)

/-- How the value of a field is obtained. -/
inductive FieldResolution (μ : Type) where
  /-- From the source of the object. -/
  | source
  | computed (compute : Computation)
  | delegated (d : Delegate μ)

namespace Registry

variable {φ ρ μ : Type} [SourceField φ]

omit [SourceField φ] in
/-- The first mapping declared for a type. -/
def typeMapping? (r : Registry φ ρ μ) (type : String) : Option (TypeMapping φ ρ μ) :=
  r.types.find? (·.type = type)

omit [SourceField φ] in
/-- Of the entries whose ending fits the path the one with the longest, the first of equals. -/
def longestEnding (path : List String) (entries : List (List String × ObjectMapping φ ρ μ)) :
    Option (List String × ObjectMapping φ ρ μ) :=
  entries.foldl (fun best entry =>
    if entry.1.isSuffixOf path && best.all fun b => b.1.length < entry.1.length then some entry
    else best) none

omit [SourceField φ] in
/-- The object mapping of a type that is reached through a path. -/
def objectMapping? (r : Registry φ ρ μ) (path : List String) (type : String) :
    Option (ObjectMapping φ ρ μ) :=
  match r.typeMapping? type with
  | some (.object m) => some m
  | some (.byPath _ entries) => (longestEnding path entries).map (·.2)
  | some (.leaf ..) => none
  | none => none

/-- The mapping of a field of a type, or of the interfaces of the type. -/
def fieldMapping? (r : Registry φ ρ μ) (path : List String) (type name : String) :
    Option (FieldMapping φ ρ μ) :=
  r.schema.search (fun t => (r.objectMapping? path t).bind (·.field? name)) type

def rootData? (r : Registry φ ρ μ) (path : List String) (type name : String) : Option ρ :=
  match r.fieldMapping? path type name with
  | some (.root _ data) => some data
  | _ => none

def sourceField? (r : Registry φ ρ μ) (path : List String) (type name : String) : Option φ :=
  (r.fieldMapping? path type name).bind (·.source?)

omit [SourceField φ] in
/-- The first encoder declared for a type. -/
def encoder? (r : Registry φ ρ μ) (type : String) : Option Encoder :=
  r.types.findSome? fun
    | .leaf t encode => if t = type then some encode else none
    | _ => none

omit [SourceField φ] in
def elaborator? (r : Registry φ ρ μ) (type field : String) : Option Elaborator :=
  (r.elaborators.reverse.find? (·.1 = (type, field))).map (·.2)

def resolve (r : Registry φ ρ μ) (path : List String) (type field : String) :
    FieldResolution μ :=
  match r.fieldMapping? path type field with
  | some (.delegate d) => .delegated d
  | some (.computed c _) => .computed c.compute
  | some (.computedAttribute c) => .computed c.compute
  | _ => .source

omit [SourceField φ] in
/-- The field mappings of all types. -/
def allFields (r : Registry φ ρ μ) : List (FieldMapping φ ρ μ) :=
  r.types.flatMap fun
    | .object m => m.fields
    | .leaf .. => []
    | .byPath _ entries => entries.flatMap (·.2.fields)

end Registry

/-- What can answer a request: documents or tables. -/
inductive Mapping where
  | documents (registry : Registry MemberField Json Mapping)
  | tables (registry : Registry TableField Unit Mapping)

/-- A registry over documents. -/
abbrev DocumentRegistry : Type := Registry MemberField Json Mapping

/-- A registry over tables. -/
abbrev TableRegistry : Type := Registry TableField Unit Mapping

namespace Mapping

def schema : Mapping → Schema
  | documents r => r.schema
  | tables r => r.schema

def resolve (path : List String) (type field : String) : Mapping → FieldResolution Mapping
  | documents r => r.resolve path type field
  | tables r => r.resolve path type field

def elaborator? (type field : String) : Mapping → Option Elaborator
  | documents r => r.elaborator? type field
  | tables r => r.elaborator? type field

def encoder? (type : String) : Mapping → Option Encoder
  | documents r => r.encoder? type
  | tables r => r.encoder? type

/-- The document of a leaf value of a type. -/
def encode (m : Mapping) (type : String) (v : Value) : Except Fault Json :=
  if v.isEmpty then .ok .null
  else
    match m.encoder? type with
    | some encode => encode v
    | none => .ok v.toJson

/-- The mapping that a field is delegated to. -/
def delegateTarget? (path : List String) (type field : String) (m : Mapping) : Option Mapping :=
  match m.resolve path type field with
  | .delegated d => some d.target
  | _ => none

/-- The declared type of a root field: of the type itself, else of the query type. -/
def rootFieldType? (m : Mapping) (type field : String) : Option TypeRef :=
  ((m.schema.field? type field).or (m.schema.field? m.schema.queryType field)).map (·.type)

end Mapping

end MappedQuery
