import MappedQuery.Cursor.View
import MappedQuery.Text.Like

/-!
# Conditions

`Predicate.holds` decides a predicate of the entity at a cursor. A path that leads through lists
has a list of values, and a comparison with a list on its left holds if it holds of some element;
to be different is to be equal to none of them.
-/
namespace MappedQuery

namespace Cursor

/-- What `read` makes of the position, of its content if it is nullable, and of the list of its
elements. -/
def readThrough (read : Cursor → Except Fault Value) : TypeRef → Cursor → Except Fault Value
  | .nullable inner, c => do
    match ← c.present? with
    | some present => readThrough read inner present
    | none => pure .null
  | .list item, c => do pure (.list (← c.elements.mapM (readThrough read item)))
  | .named _, c => read c

/-- The value that a path leads to. -/
def follow (m : Mapping) : List String → Cursor → Except Fault Value
  | [], c => c.leaf
  | name :: rest, c => do
    let type ← c.concreteType
    match m.resolve c.path type name with
    | .computed compute =>
      if rest.isEmpty then compute c.view
      else throw (.interpreter (.computedNotNavigable name type))
    | .delegated _ => throw (.interpreter (.delegatedInFilter name type))
    | .source => do
      let next ← c.field name
      let read (c : Cursor) : Except Fault Value :=
        if rest.isEmpty && !c.isLeaf then .error (.interpreter (.pathWithoutLeaf c.path))
        else follow m rest c
      readThrough read next.type next

end Cursor

namespace Term

/-- The value of an operand for the entity at a cursor. -/
def value (m : Mapping) (c : Cursor) : Term → Except Fault Value
  | .const v => .ok v
  | .path names => c.follow m names

end Term

namespace Value

mutual

/-- Whether a test holds of a value or, for a list, of some element. -/
def holdsOfSome (test : Value → Bool) : Value → Bool
  | list values => holdsOfSomeElement test values
  | v => test v

def holdsOfSomeElement (test : Value → Bool) : List Value → Bool
  | [] => false
  | v :: rest => holdsOfSome test v || holdsOfSomeElement test rest

end

end Value

namespace Predicate

/-- Whether some value of the left operand compares with the right one as accepted. -/
def comparesAs (m : Mapping) (c : Cursor) (accept : Ordering → Bool) (a b : Term) :
    Except Fault Bool := do
  let right ← b.value m c
  let left ← a.value m c
  pure (left.holdsOfSome fun v => (v.compare right).any accept)

/-- Whether some value of the left operand equals the right one. -/
def equates (m : Mapping) (c : Cursor) (a b : Term) : Except Fault Bool := do
  let right ← b.value m c
  let left ← a.value m c
  pure (left.holdsOfSome (·.looselyEquals right))

/-- Whether a predicate holds of the entity at a cursor. -/
def holds (m : Mapping) (c : Cursor) : Predicate → Except Fault Bool
  | always => .ok true
  | never => .ok false
  | and p q => do if ← p.holds m c then q.holds m c else pure false
  | or p q => do if ← p.holds m c then pure true else q.holds m c
  | not p => do pure !(← p.holds m c)
  | eq a b => equates m c a b
  | ne a b => do pure !(← equates m c a b)
  | lt a b => comparesAs m c (·.isLT) a b
  | le a b => comparesAs m c (·.isLE) a b
  | gt a b => comparesAs m c (·.isGT) a b
  | ge a b => comparesAs m c (·.isGE) a b
  | like t pattern ignoreCase => do
    let v ← t.value m c
    pure (v.holdsOfSome fun v => v.asString?.any (Text.Like.fits ignoreCase pattern))
  | isIn t values => do
    let v ← t.value m c
    pure (v.holdsOfSome fun v => values.any (·.looselyEquals v))
  | isNull t expected => do pure ((← t.value m c).isEmpty == expected)

end Predicate

end MappedQuery
