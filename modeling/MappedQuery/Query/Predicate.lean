import MappedQuery.Value.Comparison
import MappedQuery.Value.Text

/-!
# Predicates

A `Predicate` compares terms, which are constants or paths of field names that start at the
entity it is asked of. `Predicate.conj`, `disj`, `negation` and `all` build predicates and drop
trivial operands; `Predicate.display` writes them for messages and query texts.
-/
namespace MappedQuery

/-- An operand of a predicate or an ordering. -/
inductive Term where
  /-- Field names to follow from the entity. -/
  | path (names : List String)
  | const (value : Value)
deriving Repr, Inhabited, BEq

namespace Term

def field (name : String) : Term := path [name]

def asPath? : Term → Option (List String)
  | path names => some names
  | const _ => none

def display : Term → String
  | path names => String.intercalate "." names
  | const v => v.display

end Term

inductive Predicate where
  | always
  | never
  | and (p q : Predicate)
  | or (p q : Predicate)
  | not (p : Predicate)
  | eq (a b : Term)
  | ne (a b : Term)
  | lt (a b : Term)
  | le (a b : Term)
  | gt (a b : Term)
  | ge (a b : Term)
  /-- A text of the shape of a pattern. -/
  | like (term : Term) (pattern : String) (ignoreCase : Bool)
  | isIn (term : Term) (values : List Value)
  /-- Whether being null is what is expected of the term. -/
  | isNull (term : Term) (expected : Bool)
deriving Repr, Inhabited, BEq

namespace Predicate

/-- The negation; a negation is taken off instead of negated again. -/
def negation : Predicate → Predicate
  | always => never
  | never => always
  | not p => p
  | p => not p

/-- The conjunction; a trivial operand leaves the other one or decides the whole. -/
def conj : Predicate → Predicate → Predicate
  | always, q => q
  | p, always => p
  | never, _ => never
  | _, never => never
  | p, q => and p q

/-- The disjunction; a trivial operand leaves the other one or decides the whole. -/
def disj : Predicate → Predicate → Predicate
  | never, q => q
  | p, never => p
  | always, _ => always
  | _, always => always
  | p, q => or p q

/-- The conjunction of all, from the left. -/
def all (ps : List Predicate) : Predicate := ps.foldl conj always

/-- The operands of all comparisons, in order. -/
def terms : Predicate → List Term
  | always | never => []
  | and p q | or p q => p.terms ++ q.terms
  | not p => p.terms
  | eq a b | ne a b | lt a b | le a b | gt a b | ge a b => [a, b]
  | like t _ _ | isIn t _ | isNull t _ => [t]

def display : Predicate → String
  | always => "true"
  | never => "false"
  | and p q => "(" ++ p.display ++ " && " ++ q.display ++ ")"
  | or p q => "(" ++ p.display ++ " || " ++ q.display ++ ")"
  | not p => "!" ++ p.display
  | eq a b => a.display ++ " == " ++ b.display
  | ne a b => a.display ++ " != " ++ b.display
  | lt a b => a.display ++ " < " ++ b.display
  | le a b => a.display ++ " <= " ++ b.display
  | gt a b => a.display ++ " > " ++ b.display
  | ge a b => a.display ++ " >= " ++ b.display
  | like t pattern ignoreCase =>
    t.display ++ (if ignoreCase then " ilike " else " like ") ++ "\"" ++ pattern ++ "\""
  | isIn t values =>
    t.display ++ " in [" ++ String.intercalate ", " (values.map Value.display) ++ "]"
  | isNull t expected => t.display ++ (if expected then " is null" else " is not null")

@[simp] theorem conj_always (p : Predicate) : p.conj always = p := by cases p <;> rfl

@[simp] theorem always_conj (p : Predicate) : always.conj p = p := by cases p <;> rfl

@[simp] theorem disj_never (p : Predicate) : p.disj never = p := by cases p <;> rfl

@[simp] theorem never_disj (p : Predicate) : never.disj p = p := by cases p <;> rfl

@[simp] theorem all_nil : all [] = always := rfl

end Predicate

end MappedQuery
