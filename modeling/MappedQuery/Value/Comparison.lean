import MappedQuery.Value.Basic

/-!
# Comparing values

`Value.equals` is equality kind by kind, with doubles compared as numbers. `Value.compare`
orders values of compatible kinds: numbers across both numeric kinds, the text-like kinds by
their content, and null with itself. `Value.looselyEquals` is the equality of predicates: equal
in that order, or equal kind by kind, and element by element for lists.
-/
namespace MappedQuery.Value

mutual

/-- Equality kind by kind. -/
def equals : Value → Value → Bool
  | absent, absent => true
  | null, null => true
  | int a, int b => a == b
  | float a, float b => a.equals b
  | string a, string b => a == b
  | boolean a, boolean b => a == b
  | id a, id b => a == b
  | enum a, enum b => a == b
  | list as, list bs => equalElements as bs
  | object as, object bs => equalMembers as bs
  | reference a, reference b => a == b
  | _, _ => false

def equalElements : List Value → List Value → Bool
  | [], [] => true
  | a :: as, b :: bs => equals a b && equalElements as bs
  | _, _ => false

def equalMembers : List (String × Value) → List (String × Value) → Bool
  | [], [] => true
  | (k, a) :: as, (l, b) :: bs => k == l && equals a b && equalMembers as bs
  | _, _ => false

end

instance : BEq Value := ⟨equals⟩

/-- The order of values of compatible kinds. -/
def compare (a b : Value) : Option Ordering :=
  match a, b with
  | int a, int b => some (Ord.compare a.toInt b.toInt)
  | int a, float b => (Double.ofInt a.toInt).compare b
  | float a, int b => a.compare (Double.ofInt b.toInt)
  | float a, float b => a.compare b
  | boolean a, boolean b => some (Ord.compare a b)
  | null, null => some .eq
  | a, b =>
    match a.asString?, b.asString? with
    | some s, some t => some (Ord.compare s t)
    | _, _ => none

mutual

/-- The equality of predicates. -/
def looselyEquals : Value → Value → Bool
  | list as, list bs => looselyEqualElements as bs
  | a, b => compare a b == some .eq || equals a b

def looselyEqualElements : List Value → List Value → Bool
  | [], [] => true
  | a :: as, b :: bs => looselyEquals a b && looselyEqualElements as bs
  | _, _ => false

end

end MappedQuery.Value
