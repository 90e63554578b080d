import MappedQuery.Json.Reader

/-!
# Options of the command line

Switches are given or not; settings take a value, in the next argument, after an equals sign or,
for the short ones, in the same argument. A value does not begin with a hyphen unless it stands
in the argument of its setting. `Options.parse` reads all arguments first and then checks that
every setting has a value or a default, that the values can be read, and that nothing is given
twice.
-/
namespace MappedQuery.Cli

inductive LogFormat where
  | text
  | json
deriving DecidableEq, Repr, Inhabited

namespace LogFormat

def display : LogFormat → String
  | text => "text"
  | json => "json"

def ofText? (s : String) : Option LogFormat :=
  if s = "text" then some text else if s = "json" then some json else none

end LogFormat

inductive Switch where
  /-- Fills the tables before running. -/
  | seed
  | noIntrospection
  /-- Validates the mapping instead of running a request. -/
  | validate
  | logQueries
deriving DecidableEq, Repr

inductive Setting where
  | database
  | query
  | operationName
  | variableValues
  | logFormat
deriving DecidableEq, Repr

namespace Switch

def all : List Switch := [seed, noIntrospection, validate, logQueries]

def long : Switch → String
  | seed => "seed"
  | noIntrospection => "no-introspection"
  | validate => "validate"
  | logQueries => "log-queries"

def purpose : Switch → String
  | seed => "creates and fills the tables before running"
  | noIntrospection => "refuses requests for the schema"
  | validate => "lists where the mapping differs from the schema and ends"
  | logQueries => "prints every statement that was sent"

def usage (s : Switch) : String := "--" ++ s.long ++ ": " ++ s.purpose

end Switch

namespace Setting

def all : List Setting := [database, query, operationName, variableValues, logFormat]

def long : Setting → String
  | database => "database"
  | query => "query"
  | operationName => "operation-name"
  | variableValues => "variables"
  | logFormat => "log-format"

def short? : Setting → Option Char
  | database => some 'd'
  | query => some 'q'
  | _ => none

def purpose : Setting → String
  | database => "where the database is kept, in memory unless given"
  | query => "the request, read from the input unless given"
  | operationName => "the operation of a request with several"
  | variableValues => "the variables of the request, a JSON object"
  | logFormat => "text or json"

def usage (s : Setting) : String :=
  let short := match s.short? with
    | some letter => String.ofList ['-', letter] ++ ", "
    | none => ""
  short ++ "--" ++ s.long ++ " VALUE: " ++ s.purpose

/-- The value of a setting that is given without one. -/
def default? : Setting → Option String
  | logFormat => some LogFormat.text.display
  | _ => none

/-- Why a text is no value of the setting. -/
def refusal? (s : Setting) (value : String) : Option String :=
  match s with
  | variableValues =>
    match Json.parse? value with
    | some (.object _) => none
    | some _ => some "Variables must be a JSON object"
    | none => some "Invalid variables"
  | logFormat =>
    if (LogFormat.ofText? value).isSome then none else some ("Unknown log format " ++ value)
  | _ => none

end Setting

/-- Why the arguments are not taken. -/
inductive UsageFault where
  | helpWanted
  | versionWanted
  | unknownArgument (argument : String)
  | missingValue (s : Setting)
  | invalidValue (s : Setting) (reason : String)
  | repeated (long : String)
deriving DecidableEq, Repr

namespace UsageFault

def message : UsageFault → String
  | helpWanted =>
    let options := Setting.all.map Setting.usage ++ Switch.all.map Switch.usage
    "Answers requests over the world's countries, cities and languages\n  " ++
      String.intercalate "\n  " options
  | versionWanted => "mapped-query"
  | unknownArgument a => "Found argument '" ++ a ++ "' which was not expected"
  | missingValue s => "The argument '--" ++ s.long ++ "' requires a value"
  | invalidValue s reason => "Invalid value for '--" ++ s.long ++ "': " ++ reason
  | repeated long => "The argument '--" ++ long ++ "' was provided more than once"

end UsageFault

/-- What the arguments say, unchecked. -/
structure Usage where
  switches : List Switch
  settings : List Setting
  values : List (Setting × String)
  /-- The setting whose value the next argument may be. -/
  pending? : Option Setting
deriving Repr

namespace Usage

def empty : Usage := ⟨[], [], [], none⟩

/-- The values of a setting, its default if it has none. -/
def valuesOf (u : Usage) (s : Setting) : List String :=
  match u.values.filter (·.1 = s) with
  | [] => s.default?.toList
  | given => given.map (·.2)

def addSwitch (u : Usage) (s : Switch) : Usage :=
  { u with switches := u.switches ++ [s], pending? := none }

/-- A setting whose value is still to come. -/
def addSetting (u : Usage) (s : Setting) : Usage :=
  { u with settings := u.settings ++ [s], pending? := some s }

def addValue (u : Usage) (s : Setting) (value : String) : Usage :=
  { u with values := u.values ++ [(s, value)], pending? := none }

/-- A setting with the value after it in the same argument, which an equals sign may lead. -/
def addAttached (u : Usage) (s : Setting) (value : List Char) : Usage :=
  (u.addSetting s).addValue s (String.ofList (value.dropWhile (· = '=')))

/-- Takes an argument that begins with two hyphens. -/
def takeLong (u : Usage) (argument : String) : Except UsageFault Usage :=
  let body := argument.toList.dropWhile (· = '-')
  let name := String.ofList (body.takeWhile (· ≠ '='))
  let rest := body.dropWhile (· ≠ '=')
  match Setting.all.find? (·.long = name), Switch.all.find? (·.long = name) with
  | some s, _ =>
    match rest with
    | [] => .ok (u.addSetting s)
    | _ :: value => .ok (u.addAttached s value)
  | none, some s => .ok (u.addSwitch s)
  | none, none =>
    if name = "help" then .error .helpWanted
    else if name = "version" then .error .versionWanted
    else .error (.unknownArgument argument)

/-- Takes an argument that begins with one hyphen and goes on with this letter. -/
def takeShort (u : Usage) (argument : String) (letter : Char) (rest : List Char) :
    Except UsageFault Usage :=
  match Setting.all.find? (·.short? = some letter) with
  | some s => if rest.isEmpty then .ok (u.addSetting s) else .ok (u.addAttached s rest)
  | none =>
    if letter = 'h' then .error .helpWanted
    else if letter = 'V' then .error .versionWanted
    else .error (.unknownArgument argument)

/-- Takes the arguments one after the other. Two hyphens alone end the options, and there is
nothing else to give. -/
def take (u : Usage) : List String → Except UsageFault Usage
  | [] => .ok u
  | argument :: rest =>
    match argument.toList with
    | ['-', '-'] =>
      match rest with
      | [] => .ok u
      | extra :: _ => .error (.unknownArgument extra)
    | '-' :: '-' :: _ => do (← u.takeLong argument).take rest
    | '-' :: letter :: attached => do (← u.takeShort argument letter attached).take rest
    | _ =>
      match u.pending? with
      | some s => (u.addValue s argument).take rest
      | none => .error (.unknownArgument argument)

def checkSetting (u : Usage) (s : Setting) : Except UsageFault Unit :=
  match u.settings.count s with
  | 0 => .ok ()
  | count =>
    match u.valuesOf s with
    | [] => .error (.missingValue s)
    | values =>
      match values.findSome? s.refusal? with
      | some reason => .error (.invalidValue s reason)
      | none => if count = 1 then .ok () else .error (.repeated s.long)

def checkSwitch (u : Usage) (s : Switch) : Except UsageFault Unit :=
  if u.switches.count s ≤ 1 then .ok () else .error (.repeated s.long)

def check (u : Usage) : Except UsageFault Unit := do
  match u.pending? with
  | some s => if (u.valuesOf s).isEmpty then throw (.missingValue s)
  | none => pure ()
  Setting.all.forM u.checkSetting
  Switch.all.forM u.checkSwitch

def value? (u : Usage) (s : Setting) : Option String := (u.valuesOf s).head?

def isOn (u : Usage) (s : Switch) : Bool := u.switches.contains s

end Usage

structure Options where
  /-- Where the database is kept; without one the demonstration data are in memory. -/
  database? : Option String
  seed : Bool
  /-- The request; read from the input when it is missing. -/
  query? : Option String
  operationName? : Option String
  variables? : Option Json
  allowIntrospection : Bool
  validate : Bool
  logFormat : LogFormat
  logQueries : Bool
deriving Repr

namespace Options

def ofUsage (u : Usage) : Options where
  database? := u.value? .database
  seed := u.isOn .seed
  query? := u.value? .query
  operationName? := u.value? .operationName
  variables? := (u.value? .variableValues).bind Json.parse?
  allowIntrospection := !u.isOn .noIntrospection
  validate := u.isOn .validate
  logFormat := ((u.value? .logFormat).bind LogFormat.ofText?).getD .text
  logQueries := u.isOn .logQueries

def parse (arguments : List String) : Except UsageFault Options := do
  let u ← Usage.empty.take arguments
  u.check
  pure (ofUsage u)

end Options

end MappedQuery.Cli
