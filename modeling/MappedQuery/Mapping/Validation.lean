import MappedQuery.Mapping.Registry

/-!
# Validation

`Registry.validate` lists where a registry does not fit its schema: mapped types and fields that
do not exist, fields that require siblings nobody maps, encoders of types that are no leaves, and
types that should be mapped and are not. Findings are advice; a registry with findings still
answers.
-/
namespace MappedQuery

inductive Severity where
  | info
  | warning
  | error
deriving DecidableEq, Repr

namespace Severity

def display : Severity → String
  | info => "Info"
  | warning => "Warning"
  | error => "Error"

end Severity

/-- How a mapping differs from its schema. -/
inductive Mismatch where
  | unknownType (type : String)
  | unknownField (field type : String)
  | unmappedRequirement (field type required : String)
  | encoderOfNonLeaf (type : String)
  | scalarWithoutEncoder (type : String)
  | objectWithoutMapping (type : String)
deriving DecidableEq, Repr

namespace Mismatch

def severity : Mismatch → Severity
  | unknownType _ | unknownField .. | unmappedRequirement .. | encoderOfNonLeaf _ => .error
  | scalarWithoutEncoder _ => .warning
  | objectWithoutMapping _ => .info

def message : Mismatch → String
  | unknownType type => "Referenced type '" ++ type ++ "' does not exist"
  | unknownField field type =>
    "Referenced field '" ++ field ++ "' does not exist in type '" ++ type ++ "'"
  | unmappedRequirement field type required =>
    "Field '" ++ field ++ "' of type '" ++ type ++ "' requires '" ++ required ++
      "' which is not mapped"
  | encoderOfNonLeaf type =>
    "Leaf mapping for type '" ++ type ++ "' which is not a scalar or enum"
  | scalarWithoutEncoder type => "Custom scalar '" ++ type ++ "' has no leaf mapping"
  | objectWithoutMapping type => "Object type '" ++ type ++ "' has no mapping"

end Mismatch

namespace Registry

variable {φ ρ μ : Type} [SourceField φ]

/-- The findings in an object mapping whose path ends as given. -/
def validateObject (r : Registry φ ρ μ) (ending : List String) (m : ObjectMapping φ ρ μ) :
    List Mismatch :=
  m.fields.flatMap fun f =>
    (if !f.hidden && (r.schema.field? m.type f.name).isNone then
      [Mismatch.unknownField f.name m.type] else []) ++
    (f.required.filter fun q => (r.fieldMapping? ending m.type q).isNone).map
      (Mismatch.unmappedRequirement f.name m.type ·)

def validateType (r : Registry φ ρ μ) (t : TypeMapping φ ρ μ) : List Mismatch :=
  match r.schema.find? t.type with
  | none => [.unknownType t.type]
  | some d =>
    match t with
    | .object m => r.validateObject [] m
    | .byPath _ entries => entries.flatMap fun (ending, m) => r.validateObject ending m
    | .leaf type _ => if d.isLeaf then [] else [.encoderOfNonLeaf type]

omit [SourceField φ] in
/-- The findings at a type of the schema that no declaration mentions. -/
def validateDefinition (r : Registry φ ρ μ) (d : TypeDefinition) : List Mismatch :=
  match d with
  | .scalar name =>
    if Schema.builtinScalars.contains name || (r.encoder? name).isSome then []
    else [.scalarWithoutEncoder name]
  | .object o => if (r.typeMapping? o.name).isSome then [] else [.objectWithoutMapping o.name]
  | _ => []

/-- The findings at the declarations, then those at the types of the schema. -/
def validate (r : Registry φ ρ μ) : List Mismatch :=
  r.types.flatMap r.validateType ++ r.schema.types.flatMap r.validateDefinition

end Registry

namespace Mapping

def validate : Mapping → List Mismatch
  | documents r => r.validate
  | tables r => r.validate

end Mapping

end MappedQuery
