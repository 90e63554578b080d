import MappedQuery.Proofs.CompiledRoots
import MappedQuery.Proofs.ConformingDocuments
import MappedQuery.Proofs.HistoryFree
import MappedQuery.Proofs.NarrowedTypes
import MappedQuery.Proofs.ObjectPositions
import MappedQuery.Proofs.ShownMembers
import MappedQuery.Proofs.StaticPaths

/-!
# Lists of an abstract type

The elements of a list may be of different object types, each of which the data tell. Fragments on
object types are read element by element: an element is an object with the members of the fragments
on its own type, in the order in which their keys come first, and an object without members if no
fragment is on its type. So a fragment has no part in the elements of other types, and without it
those of its type only lose keys.
-/
namespace MappedQuery

open Sql

namespace Json

end Json

namespace Run

variable {α β : Type} {database : Database}

/-- In every session of a database a run comes to this, and leaves a session of the database. -/
def ComesTo (database : Database) (x : Run α) (a : Except Fault α) : Prop :=
  ∀ s : Session, s.database = database →
    (x.run.run s).1 = a ∧ (x.run.run s).2.database = database

theorem comesTo_ofExcept (a : Except Fault α) : (ofExcept a).ComesTo database a := by
  intro s hs
  cases a with
  | error f => exact ⟨rfl, hs⟩
  | ok a => exact ⟨rfl, hs⟩

theorem ComesTo.bind {x : Run α} {f : α → Run β} {a : Except Fault α} {g : α → Except Fault β}
    (hx : x.ComesTo database a) (hf : ∀ v, a = .ok v → (f v).ComesTo database (g v)) :
    (x >>= f).ComesTo database (a >>= g) := by
  intro s hs
  obtain ⟨hvalue, hdatabase⟩ := hx s hs
  change ((ExceptT.bindCont f (x.run.run s).1).run (x.run.run s).2).1 = _ ∧
    ((ExceptT.bindCont f (x.run.run s).1).run (x.run.run s).2).2.database = _
  rw [hvalue]
  cases a with
  | error f => exact ⟨rfl, hdatabase⟩
  | ok v => exact hf v rfl _ hdatabase

theorem ComesTo.map {x : Run α} {a : Except Fault α} (f : α → β) (hx : x.ComesTo database a) :
    (f <$> x).ComesTo database (f <$> a) := by
  rw [map_eq_pure_bind, map_eq_pure_bind]
  exact hx.bind fun v _ => comesTo_ofExcept (.ok (f v))

end Run

/-- A fragment on a type, with selections that have keys in the response. -/
structure Fragment where
  type : String
  selections : List Query
  keyed : ∀ q ∈ selections, q.key?.isSome = true

namespace Fragment

/-- The query that asks for all of the fragments. -/
def together (fragments : List Fragment) : Query :=
  .grouped (fragments.map fun f => .narrow f.type (.grouped f.selections))

/-- What fragments select of the objects of a type. -/
def selectionsOn (type : String) (fragments : List Fragment) : List Query :=
  (fragments.filter (·.type = type)).flatMap (·.selections)

end Fragment

namespace Query

variable {m : Mapping} {answers : Answers m} {q : Query} {c o : Cursor} {key name type : String}

end Query

namespace Fragment

variable {m : Mapping} {answers : Answers m} {fragments : List Fragment} {c o : Cursor}
  {type : String}

end Fragment

namespace Cursor

variable {c l e : Cursor} {declared type : String}

/-- The position is a list, or a nullable one that holds the list. -/
def Holds (c l : Cursor) : Prop := c = l ∨ c.present? = .ok (some l)

namespace TellingList

variable {m : Mapping} {answers : Answers m} {told : Cursor → String}

end TellingList

end Cursor

namespace Fragment

variable {m : Mapping} {answers : Answers m} {fragments : List Fragment} {c l : Cursor}
  {declared : String}

end Fragment

namespace Menagerie

/-- Animals of three kinds, newts without a name. -/
def registry : DocumentRegistry where
  schema := Schema.ofTypes [
    .object ⟨"Query", [⟨"animals", [], .list (.named "Animal")⟩], []⟩,
    .union "Animal" ["Cat", "Dog", "Newt"],
    .object ⟨"Cat", [⟨"name", [], .named "String"⟩], []⟩,
    .object ⟨"Dog", [⟨"name", [], .named "String"⟩], []⟩,
    .object ⟨"Newt", [], []⟩] "Query"
  types := [
    .object ⟨"Cat", [.source (.same "name")]⟩,
    .object ⟨"Dog", [.source (.same "name")]⟩]
  elaborators := []

/-- The type name of cats, and their name under another key. -/
def ofCats : Fragment :=
  ⟨"Cat", [.field "__typename", .select "name" (some "called") [] .empty], by decide⟩

def ofDogs : Fragment := ⟨"Dog", [.field "name"], by decide⟩

def answers : Answers (.documents registry) := fun d _ type s => d.target.readRoot type s

theorem implementsInterfaces : registry.schema.ImplementsInterfaces := by
  refine Schema.implementsInterfaces_of_types fun d hd b hb => ?_
  have hnone : ∀ d ∈ registry.schema.types, d.interfaces = [] := by decide
  rw [hnone d hd] at hb
  cases hb

theorem isObject : ∀ f ∈ [ofCats, ofDogs], registry.schema.IsObject f.type := by
  simp only [List.forall_mem_cons]
  exact ⟨⟨_, rfl⟩, ⟨_, rfl⟩, List.forall_mem_nil _⟩

end Menagerie

end MappedQuery
