/-!
# Type references

A `TypeRef` is the type of a field, an argument or a position of a result. Nullability is a
wrapper of its own: the written type `T` is `nullable (named T)` and `T!` is `named T`.
-/
namespace MappedQuery

inductive TypeRef where
  | named (name : String)
  | list (item : TypeRef)
  | nullable (inner : TypeRef)
deriving DecidableEq, Repr, Inhabited

namespace TypeRef

def isNullable : TypeRef → Bool
  | nullable _ => true
  | _ => false

/-- The nullable form of a type. -/
def orNull : TypeRef → TypeRef
  | nullable inner => nullable inner
  | other => nullable other

/-- The type without its outermost nullability. -/
def nonNull : TypeRef → TypeRef
  | nullable inner => inner
  | other => other

def isList (t : TypeRef) : Bool :=
  match t.nonNull with
  | list _ => true
  | _ => false

/-- The element type of a list, nullable or not. -/
def item? (t : TypeRef) : Option TypeRef :=
  match t.nonNull with
  | list item => some item
  | _ => none

/-- The type of the elements that a position of this type is read as. -/
def element (t : TypeRef) : TypeRef := t.item?.getD t.nonNull

/-- The named type below all wrappers. -/
def underlying : TypeRef → String
  | named name => name
  | list item => item.underlying
  | nullable inner => inner.underlying

/-- The elements of a list have its named type. -/
theorem underlying_element (t : TypeRef) : t.element.underlying = t.underlying := by
  unfold element item? nonNull
  rcases t with _ | _ | (_ | _ | _) <;> rfl

/-- The mark of a type that excludes null. -/
def mark : TypeRef → String
  | nullable _ => ""
  | _ => "!"

/-- The written type without its own mark. -/
def bare : TypeRef → String
  | named name => name
  | list item => "[" ++ item.bare ++ item.mark ++ "]"
  | nullable inner => inner.bare

/-- The written type. -/
def display (t : TypeRef) : String := t.bare ++ t.mark

@[simp] theorem isNullable_orNull (t : TypeRef) : t.orNull.isNullable = true := by
  cases t <;> rfl

@[simp] theorem orNull_orNull (t : TypeRef) : t.orNull.orNull = t.orNull := by
  cases t <;> rfl

@[simp] theorem underlying_orNull (t : TypeRef) : t.orNull.underlying = t.underlying := by
  cases t <;> rfl

example : (nullable (list (named "City"))).display = "[City!]" := by decide +kernel

end TypeRef

end MappedQuery
