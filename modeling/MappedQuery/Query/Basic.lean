import MappedQuery.Query.Order

/-!
# Queries

A `Query` is what a request is compiled into: selections of fields with their arguments, groups
of queries at one position, list operations, fragments that apply to some types only, and fields
that other mappings answer. `Query.members` takes groups apart, `Query.grouped` puts queries
together, and `Query.mapInnermost` changes what stands below the list operations.
-/
namespace MappedQuery

/-- An argument and its value. -/
structure Binding where
  name : String
  value : Value
deriving Repr, Inhabited, BEq

inductive Query where
  /-- A field of the current position. -/
  | select (name : String) (alias? : Option String) (bindings : List Binding) (child : Query)
  /-- The elements of a list that satisfy a predicate. -/
  | filter (predicate : Predicate) (child : Query)
  /-- The only element of a list. -/
  | unique (child : Query)
  | group (queries : List Query)
  /-- A query that applies to positions of one type only. -/
  | narrow (type : String) (child : Query)
  /-- The first elements of a list. -/
  | limit (count : Nat) (child : Query)
  | orderBy (selections : List OrderSelection) (child : Query)
  /-- A field that another mapping answers; the join is that of the type and the field. -/
  | component (type field : String) (child : Query)
  /-- A selection of the type system. -/
  | introspect (child : Query)
  | empty
deriving Repr, Inhabited, BEq

/-- The selection of one field. -/
structure Select where
  name : String
  alias? : Option String
  bindings : List Binding
  child : Query
deriving Repr, Inhabited

namespace Select

def toQuery (s : Select) : Query := .select s.name s.alias? s.bindings s.child

/-- The key of the field in the response. -/
def resultName (s : Select) : String := s.alias?.getD s.name

/-- The value of the first argument of a name. -/
def binding? (s : Select) (name : String) : Option Value :=
  (s.bindings.find? (·.name = name)).map (·.value)

/-- The value of an argument that carries data. -/
def supplied? (s : Select) (name : String) : Option Value :=
  (s.binding? name).filter fun v => !v.isEmpty

/-- A selection without alias and arguments. -/
def plain (name : String) (child : Query) : Select := ⟨name, none, [], child⟩

end Select

namespace Query

/-- A leaf selection. -/
def field (name : String) : Query := (Select.plain name .empty).toQuery

def isEmpty : Query → Bool
  | empty => true
  | _ => false

/-- Whether the query picks, orders or counts the elements of a list. -/
def isListOperation : Query → Bool
  | filter .. | unique _ | limit .. | orderBy .. => true
  | _ => false

mutual

/-- The members of a group and of the groups in it; any other query is its own only member. -/
def members : Query → List Query
  | group queries => membersAll queries
  | empty => []
  | q => [q]

def membersAll : List Query → List Query
  | [] => []
  | q :: rest => members q ++ membersAll rest

end

/-- The group of the members of these queries; a single one stands for itself. -/
def grouped (queries : List Query) : Query :=
  match membersAll queries with
  | [] => empty
  | [q] => q
  | qs => group qs

/-- The query with `f` applied below its list operations. -/
def mapInnermost (f : Query → Query) : Query → Query
  | filter p child => filter p (child.mapInnermost f)
  | unique child => unique (child.mapInnermost f)
  | limit n child => limit n (child.mapInnermost f)
  | orderBy os child => orderBy os (child.mapInnermost f)
  | q => f q

@[simp] theorem membersAll_append (as bs : List Query) :
    membersAll (as ++ bs) = membersAll as ++ membersAll bs := by
  induction as with
  | nil => rfl
  | cons a as ih => simp [membersAll, ih]

end Query

end MappedQuery
