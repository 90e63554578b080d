import MappedQuery.Mapping.Registry
import MappedQuery.Query.Basic
import MappedQuery.Value.Text

/-!
# Introspection

A schema describes itself: `Introspection.mapping` answers `__schema` and `__type` from a document
about the schema. The document lists every type with its fields, arguments, interfaces, possible
types, enumeration values and input fields. A reference to a type from within names the type
below its wrappers, which are explicit where a type excludes null, and says nothing else about
it. Descriptions, deprecations and root types other than that of queries are always null.
-/
namespace MappedQuery.Introspection

/-- A nullable type of one name. -/
private def optional (name : String) : TypeRef := .nullable (.named name)

private def listOf (name : String) : TypeRef := .list (.named name)

private def field (name : String) (type : TypeRef) : FieldDefinition := ⟨name, [], type⟩

private def objectType (name : String) (fields : List FieldDefinition) : TypeDefinition :=
  .object ⟨name, fields, []⟩

/-- An argument that is false unless supplied. -/
private def includeDeprecated : InputDefinition :=
  ⟨"includeDeprecated", optional "Boolean", some (.boolean false)⟩

/-- The schema of introspection. -/
def schema : Schema :=
  .ofTypes [
    objectType "Query" [
      field "__schema" (.named "__Schema"),
      ⟨"__type", [⟨"name", .named "String", none⟩], optional "__Type"⟩],
    objectType "__Schema" [
      field "description" (optional "String"),
      field "types" (listOf "__Type"),
      field "queryType" (.named "__Type"),
      field "mutationType" (optional "__Type"),
      field "subscriptionType" (optional "__Type"),
      field "directives" (listOf "__Directive")],
    objectType "__Type" [
      field "kind" (.named "__TypeKind"),
      field "name" (optional "String"),
      field "description" (optional "String"),
      ⟨"fields", [includeDeprecated], .nullable (listOf "__Field")⟩,
      field "interfaces" (.nullable (listOf "__Type")),
      field "possibleTypes" (.nullable (listOf "__Type")),
      ⟨"enumValues", [includeDeprecated], .nullable (listOf "__EnumValue")⟩,
      field "inputFields" (.nullable (listOf "__InputValue")),
      field "ofType" (optional "__Type"),
      field "specifiedByURL" (optional "String")],
    objectType "__Field" [
      field "name" (.named "String"),
      field "description" (optional "String"),
      field "args" (listOf "__InputValue"),
      field "type" (.named "__Type"),
      field "isDeprecated" (.named "Boolean"),
      field "deprecationReason" (optional "String")],
    objectType "__InputValue" [
      field "name" (.named "String"),
      field "description" (optional "String"),
      field "type" (.named "__Type"),
      field "defaultValue" (optional "String")],
    objectType "__EnumValue" [
      field "name" (.named "String"),
      field "description" (optional "String"),
      field "isDeprecated" (.named "Boolean"),
      field "deprecationReason" (optional "String")],
    .enum "__TypeKind"
      ["SCALAR", "OBJECT", "INTERFACE", "UNION", "ENUM", "INPUT_OBJECT", "LIST", "NON_NULL"],
    objectType "__Directive" [
      field "name" (.named "String"),
      field "description" (optional "String"),
      field "locations" (listOf "__DirectiveLocation"),
      field "args" (listOf "__InputValue")],
    .enum "__DirectiveLocation" ["QUERY", "FIELD", "FRAGMENT_SPREAD", "INLINE_FRAGMENT"]]
    "Query"

/-- The document of a type or a reference to one. -/
structure TypeDocument where
  kind : String
  name : Json
  fields : Json
  interfaces : Json
  possibleTypes : Json
  enumValues : Json
  inputFields : Json
  ofType : Json

namespace TypeDocument

def toJson (t : TypeDocument) : Json :=
  .object [
    ("kind", .string t.kind), ("name", t.name), ("description", .null), ("fields", t.fields),
    ("interfaces", t.interfaces), ("possibleTypes", t.possibleTypes),
    ("enumValues", t.enumValues), ("inputFields", t.inputFields), ("ofType", t.ofType),
    ("specifiedByURL", .null)]

/-- A type of which only kind, name and wrapped type are told. -/
def reference (kind : String) (name ofType : Json) : TypeDocument :=
  ⟨kind, name, .null, .null, .null, .null, .null, ofType⟩

end TypeDocument

/-- The reference to a wrapper around a type. -/
def wrapper (kind : String) (ofType : Json) : Json :=
  (TypeDocument.reference kind .null ofType).toJson

/-- The reference to a type of a name; what the schema does not have is taken for a scalar. -/
def namedReference (s : Schema) (name : String) : Json :=
  let kind := ((s.find? name).map (·.kind)).getD "SCALAR"
  (TypeDocument.reference kind (.string name) .null).toJson

mutual

/-- The reference to a type. -/
def typeReference (s : Schema) : TypeRef → Json
  | .nullable inner => bareReference s inner
  | .named name => wrapper "NON_NULL" (namedReference s name)
  | .list item => wrapper "NON_NULL" (wrapper "LIST" (typeReference s item))

/-- The reference to a type as one that admits null. -/
def bareReference (s : Schema) : TypeRef → Json
  | .named name => namedReference s name
  | .list item => wrapper "LIST" (typeReference s item)
  | .nullable inner => bareReference s inner

end

def inputDocument (s : Schema) (i : InputDefinition) : Json :=
  .object [
    ("name", .string i.name), ("description", .null), ("type", typeReference s i.type),
    ("defaultValue", (i.default?.map fun v => Json.string v.display).getD .null)]

def fieldDocument (s : Schema) (f : FieldDefinition) : Json :=
  .object [
    ("name", .string f.name), ("description", .null),
    ("args", .array (f.arguments.map (inputDocument s))), ("type", typeReference s f.type),
    ("isDeprecated", .bool false), ("deprecationReason", .null)]

def enumValueDocument (name : String) : Json :=
  .object [
    ("name", .string name), ("description", .null), ("isDeprecated", .bool false),
    ("deprecationReason", .null)]

/-- The fields or interfaces of the types that have such. -/
private def ofObjects (d : TypeDefinition) (members : List Json) : Json :=
  match d with
  | .object _ => .array members
  | .interface _ => .array members
  | _ => .null

/-- The whole description of a type. -/
def typeDocument (s : Schema) (d : TypeDefinition) : Json :=
  TypeDocument.toJson {
    kind := d.kind
    name := .string d.name
    fields := ofObjects d (d.fields.map (fieldDocument s))
    interfaces := ofObjects d (d.interfaces.map (namedReference s))
    possibleTypes :=
      if d.isAbstract then .array ((s.possibleTypes d.name).map (namedReference s)) else .null
    enumValues :=
      match d with
      | .enum _ values => .array (values.map enumValueDocument)
      | _ => .null
    inputFields :=
      match d with
      | .input o => .array (o.fields.map (inputDocument s))
      | _ => .null
    ofType := .null }

/-- The condition that both directives take. -/
def conditionDocument : Json :=
  .object [
    ("name", .string "if"), ("description", .null),
    ("type", wrapper "NON_NULL"
      (TypeDocument.reference "SCALAR" (.string "Boolean") .null).toJson),
    ("defaultValue", .null)]

def directiveDocument (name : String) : Json :=
  .object [
    ("name", .string name), ("description", .null),
    ("locations", .array (["FIELD", "FRAGMENT_SPREAD", "INLINE_FRAGMENT"].map .string)),
    ("args", .array [conditionDocument])]

/-- The description of a schema. -/
def schemaDocument (s : Schema) : Json :=
  .object [
    ("description", .null), ("types", .array (s.types.map (typeDocument s))),
    ("queryType", namedReference s s.queryType), ("mutationType", .null),
    ("subscriptionType", .null),
    ("directives", .array (["skip", "include"].map directiveDocument))]

/-- Selects the only type with the name that is asked for. -/
def typeByName : Elaborator := fun s =>
  match s.binding? "name" with
  | some (.string name) =>
    let named : Predicate := .eq (.field "name") (.const (.string name))
    .ok { s with child := .unique (.filter named s.child) }.toQuery
  | _ => .error (.elaboration (.custom "Field '__type' requires a 'name' argument"))

/-- The mapping that reads every field of an object type from the member of its name. -/
private def sameMembers (d : TypeDefinition) : TypeMapping MemberField Json Mapping :=
  .object ⟨d.name, d.fields.map fun f => .source (.same f.name)⟩

/-- What answers introspection of a schema. -/
def registry (s : Schema) : DocumentRegistry :=
  let roots : ObjectMapping MemberField Json Mapping :=
    ⟨"Query", [
      .root "__schema" (schemaDocument s),
      .root "__type" (.array (s.types.map (typeDocument s)))]⟩
  let described := schema.types.filter fun d => d.isObject && d.name ≠ schema.queryType
  { schema
    types := .object roots :: described.map sameMembers
    elaborators := [(("Query", "__type"), typeByName)] }

/-- The mapping that answers introspection of a schema. -/
def mapping (s : Schema) : Mapping := .documents (registry s)

end MappedQuery.Introspection
