import MappedQuery.Query.Text
import MappedQuery.Schema.TypeRef

/-!
# Faults

A `Fault` is the cause of a failure, layer by layer: a request document that cannot be read, a
selection that does not fit the schema, a query that does not fit its mapping or its data, and a
statement that cannot be built or answered. `Fault.message` words every cause; the `custom`
causes carry the words of whoever declares a mapping or answers a statement.
-/
namespace MappedQuery

/-- Why a request document yields no query. -/
inductive RequestFault where
  | malformed
  | mutation
  | subscription
  | unknownOperation (name : String)
  | noOperation
  | ambiguousOperation
  | missingVariable (name : String)
  | undefinedVariable (name : String)
  | unknownFragment (name : String)
  | fragmentCycle (name : String)
  /-- A directive that includes or skips a selection lacks its condition. -/
  | conditionMissing (directive : String)
  | custom (text : String)
deriving Repr

namespace RequestFault

def message : RequestFault → String
  | malformed => "query parse error"
  | mutation => "Mutations are not supported"
  | subscription => "Subscriptions are not supported"
  | unknownOperation name => "Unknown operation named '" ++ name ++ "'"
  | noOperation => "At least one operation required"
  | ambiguousOperation => "Operation name required to select unique operation"
  | missingVariable name => "Value for required variable '" ++ name ++ "' not provided"
  | undefinedVariable name => "Variable '" ++ name ++ "' is not defined"
  | unknownFragment name => "Unknown fragment '" ++ name ++ "'"
  | fragmentCycle name => "Fragment cycle starting at '" ++ name ++ "'"
  | conditionMissing directive =>
    "Directive '@" ++ directive ++ "' requires a Boolean argument 'if'"
  | custom text => text

end RequestFault

/-- Why the arguments of a field do not fit its declaration. -/
inductive ArgumentFault where
  | unknownArguments (names : List String)
  | missingArgument (name : String)
  | missingField (name inputType : String)
  | nullValue (type : TypeRef)
  | notInEnum (value : Value) (enumType : String)
  | notAnInputType (name : String)
  | wrongKind (expected found : String)
  | notAnInputObject (inputType : String)
  | unknownFields (names : List String) (inputType : String)
deriving Repr

namespace ArgumentFault

private def quoteAll (names : List String) : String :=
  String.intercalate ", " (names.map fun n => "'" ++ n ++ "'")

def message : ArgumentFault → String
  | unknownArguments names => "Unknown argument(s) " ++ quoteAll names
  | missingArgument name => "Missing required argument '" ++ name ++ "'"
  | missingField name inputType =>
    "Missing required field '" ++ name ++ "' of input object type " ++ inputType
  | nullValue type => "Null value for non-nullable input of type " ++ type.display
  | notInEnum v enumType => "Invalid value " ++ v.display ++ " for enum type " ++ enumType
  | notAnInputType name => "Type " ++ name ++ " cannot be used as an input"
  | wrongKind expected found => "Expected " ++ expected ++ " found " ++ found
  | notAnInputObject inputType => "Expected input object value of type " ++ inputType
  | unknownFields names inputType =>
    "Unknown field(s) " ++ quoteAll names ++ " in input object value of type " ++ inputType

end ArgumentFault

/-- Why a selection does not fit the schema. -/
inductive ElaborationFault where
  | arguments (cause : ArgumentFault) (field type : String)
  | leafWithSelections (field type : String)
  | objectWithoutSelections (field type : String)
  | typenameWithSelections
  | neverApplies (condition type : String)
  | custom (text : String)
deriving Repr

namespace ElaborationFault

def message : ElaborationFault → String
  | arguments cause field type =>
    cause.message ++ " in field '" ++ field ++ "' of type '" ++ type ++ "'"
  | leafWithSelections field type =>
    "Leaf field '" ++ field ++ "' of type '" ++ type ++ "' must not have a selection set"
  | objectWithoutSelections field type =>
    "Non-leaf field '" ++ field ++ "' of type '" ++ type ++ "' requires a selection set"
  | typenameWithSelections => "Field '__typename' must not have a selection set"
  | neverApplies condition type =>
    "Type condition '" ++ condition ++ "' can never apply to type '" ++ type ++ "'"
  | custom text => text

end ElaborationFault

/-- Why a query cannot be evaluated over its data. -/
inductive InterpreterFault where
  /-- A position was read as something else than it is. -/
  | mismatch (expected : String) (path : List String) (type : TypeRef)
  | malformedComponent (query : Query)
  | unexpectedRoot (query : Query)
  | unexpectedQuery (query : Query) (path : List String)
  | joinWithoutSelect (field : String) (query : Query)
  | noTypename (type : String) (path : List String)
  | noDiscriminator (type : String)
  | unknownDiscriminator (value : Value) (type : String) (path : List String)
  | columnNotSelected (table column : String)
  | fieldNotJoined (field type : String)
  | computedNotNavigable (field type : String)
  | delegatedInFilter (field type : String)
  | pathWithoutLeaf (path : List String)
  /-- The attributes that an attribute reads lead back to it. -/
  | endlessAttribute (name : String)
  | custom (text : String)
deriving Repr

/-- The text of a path. -/
def pathText (path : List String) : String := String.intercalate "." path

namespace InterpreterFault

def message : InterpreterFault → String
  | mismatch expected path type =>
    "Expected " ++ expected ++ " at '" ++ pathText path ++ "', found type " ++ type.display
  | malformedComponent query => "Malformed component " ++ query.display
  | unexpectedRoot query => "Unexpected root query " ++ query.display
  | unexpectedQuery query path =>
    "Unexpected " ++ query.display ++ " at object position '" ++ pathText path ++ "'"
  | joinWithoutSelect field query =>
    "Join of delegated field '" ++ field ++ "' must produce a select, found " ++ query.display
  | noTypename type path =>
    "Value of abstract type '" ++ type ++ "' at '" ++ pathText path ++ "' has no __typename"
  | noDiscriminator type => "No discriminator for abstract type '" ++ type ++ "'"
  | unknownDiscriminator value type path =>
    "Discriminator value " ++ value.display ++ " of '" ++ type ++ "' at '" ++ pathText path ++
      "' matches no type"
  | columnNotSelected table column =>
    "Column '" ++ table ++ "." ++ column ++ "' was not selected"
  | fieldNotJoined field type =>
    "Field '" ++ field ++ "' of type '" ++ type ++ "' was not joined"
  | computedNotNavigable field type =>
    "Computed field '" ++ field ++ "' of type '" ++ type ++ "' cannot be navigated"
  | delegatedInFilter field type =>
    "Filtering on delegated field '" ++ field ++ "' of type '" ++ type ++ "' is not supported"
  | pathWithoutLeaf path => "Filter path '" ++ pathText path ++ "' does not end at a leaf"
  | endlessAttribute name => "Attribute '" ++ name ++ "' depends on itself"
  | custom text => text

end InterpreterFault

/-- What has no counterpart in a statement. -/
inductive Inexpressible where
  | query (q : Query)
  | path (t : Term)
  | abstractType (type : String)
  /-- A field is selected again and one of its selections is filtered. -/
  | filteredAgain (field : String)
  | withoutJoins (field : String)
deriving Repr

namespace Inexpressible

def display : Inexpressible → String
  | query q => q.display
  | path t => "path " ++ t.display
  | abstractType type => "abstract type '" ++ type ++ "' has no discriminator"
  | filteredAgain field => "field '" ++ field ++ "' selected more than once with filters"
  | withoutJoins field => "object field '" ++ field ++ "' without joins"

end Inexpressible

/-- Why a statement cannot be built or answered. -/
inductive ConnectorFault where
  | conversion (text : String)
  | unbindable (kind : String)
  | unsupportedPredicate (predicate : Predicate)
  | unsupportedQuery (what : Inexpressible)
  | missingKey (type : String)
  | foreignColumn (field column table : String)
  /-- What a field requires was not followed any further. -/
  | endlessRequirement (field : String)
  | custom (text : String)
deriving Repr

namespace ConnectorFault

def message : ConnectorFault → String
  | conversion text => "Conversion failed: " ++ text
  | unbindable kind =>
    "Conversion failed: Cannot bind a " ++ kind ++ " value as a statement parameter"
  | unsupportedPredicate p => "Cannot translate predicate '" ++ p.display ++ "' into SQL"
  | unsupportedQuery what => "Cannot translate query '" ++ what.display ++ "' into SQL"
  | missingKey type => "No key columns mapped for type '" ++ type ++ "'"
  | foreignColumn field column table =>
    "Column '" ++ column ++ "' of field '" ++ field ++ "' is not in table '" ++ table ++ "'"
  | endlessRequirement field => "Field '" ++ field ++ "' requires itself"
  | custom text => text

end ConnectorFault

inductive Fault where
  | request (cause : RequestFault)
  | unknownField (field type : String)
  | unknownType (name : String)
  | elaboration (cause : ElaborationFault)
  | introspectionDisabled
  | missingRootMapping (field : String)
  | missingFieldMapping (field type : String)
  | missingAttribute (name type : String)
  /-- A list that must have one element has another number of them. -/
  | notUnique (field : String) (found : Nat)
  | interpreter (cause : InterpreterFault)
  | connector (cause : ConnectorFault)
deriving Repr

/-- The stage that a problem comes from. -/
inductive ProblemKind where
  | compile
  | runtime
  | connector
deriving DecidableEq, Repr

namespace Fault

def message : Fault → String
  | request cause => cause.message
  | unknownField field type =>
    "Unknown field '" ++ field ++ "' in select on type '" ++ type ++ "'"
  | unknownType name => "Unknown type '" ++ name ++ "'"
  | elaboration cause => cause.message
  | introspectionDisabled => "Introspection is disabled"
  | missingRootMapping field => "No root mapping for field '" ++ field ++ "'"
  | missingFieldMapping field type =>
    "No field mapping for field '" ++ field ++ "' of type '" ++ type ++ "'"
  | missingAttribute name type =>
    "Cursor attribute '" ++ name ++ "' of type '" ++ type ++ "' is not available"
  | notUnique field found =>
    "Expected a single result for field '" ++ field ++ "', found " ++ toString found
  | interpreter cause => cause.message
  | connector cause => "Error in connector: " ++ cause.message

def kind : Fault → ProblemKind
  | request _ | unknownField .. | unknownType _ | elaboration _ | introspectionDisabled => .compile
  | connector _ => .connector
  | missingRootMapping _ | missingFieldMapping .. | missingAttribute .. | notUnique ..
  | interpreter _ => .runtime

/-- Whether planning was cut off in following what a field requires. -/
def isEndless : Fault → Bool
  | connector (.endlessRequirement _) => true
  | _ => false

end Fault

end MappedQuery
