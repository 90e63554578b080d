import Mathlib
import MappedQuery.Proofs.Ancestry
import MappedQuery.Schema.Declared
import MappedQuery.Sql.Plan

/-!
# Look-ups through interfaces

The fields of a type, its supertypes, the types that an abstract type stands for, the mapping of a
field and the key columns of a type are looked up by walks through interfaces. Schemas are accepted
whatever their types implement, themselves included, so not every look-up has an end: it has one
if and only if its walks come to no type a second time. Where no type leads back to itself all of
them end, and a look-up of what is declared nowhere ends only where none of the types that are
reached does.
-/
namespace MappedQuery

namespace Schema

variable {α : Type} {s : Schema} {test : String → Option α} {t u : String}

/-- Passes a type and the members of a union, as its subtypes do. -/
def isA? (s : Schema) (sup type : String) : Option Unit :=
  if type = sup || (s.unionMembers sup).contains type then some () else none

/-- A walk that ends and finds nothing has gone on with every interface. -/
theorem Ends.goesOn_of_implements (h : s.Ends test t)
    (hmiss : ∀ u, s.Reaches t u → test u = none) (hi : s.Implements t u) : s.GoesOn test t u := by
  have htells := h.tells_search
  cases hfound : s.search test t with
  | some a =>
    obtain ⟨v, hv, htest⟩ := reaches_of_search hfound
    cases (hmiss v hv).symm.trans htest
  | none =>
    rw [hfound] at htells
    obtain ⟨hnone, hinterfaces⟩ := not_passes_of_tells htells
    obtain ⟨before, after, hsplit⟩ := List.append_of_mem hi
    refine ⟨hnone, before, after, hsplit, fun b hb => hinterfaces b ?_⟩
    rw [Implements, hsplit]
    exact List.mem_append_left _ hb

/-- Where nothing that is reached passes, a walk has an end if and only if no type that is reached
leads back to itself. -/
theorem ends_iff_of_miss (hmiss : ∀ u, s.Reaches t u → test u = none) :
    s.Ends test t ↔ ∀ u, s.Reaches t u → ¬ Relation.TransGen s.Implements u u := by
  constructor
  · intro h u hu
    have hstep {a b : String} (ha : s.Reaches t a) (hends : s.Ends test a)
        (hab : s.Implements a b) : s.GoesOn test a b :=
      hends.goesOn_of_implements (fun v hv => hmiss v (ha.trans hv)) hab
    have hends : s.Ends test u := by
      induction hu with
      | refl => exact h
      | tail ha hab ih => exact ih.goesOn (hstep ha ih hab)
    intro hloop
    suffices hgoes : ∀ v, Relation.TransGen s.Implements u v →
        s.Ends test v ∧ Relation.TransGen (s.GoesOn test) u v from
      hends.neverReturns u .refl (hgoes u hloop).2
    intro v hv
    induction hv with
    | single hab =>
      have hgo := hstep hu hends hab
      exact ⟨hends.goesOn hgo, .single hgo⟩
    | tail hua hab ih =>
      have hgo := hstep (hu.trans hua.to_reflTransGen) ih.1 hab
      exact ⟨ih.1.goesOn hgo, ih.2.tail hgo⟩
  · intro h
    have himplements : s.GoesOn test ≤ s.Implements := fun _ _ => GoesOn.implements
    exact ends_iff_neverReturns.2 fun u hu hloop =>
      h u (Relation.ReflTransGen.mono himplements _ _ hu)
        (Relation.TransGen.mono himplements _ _ hloop)

end Schema

/-- The mapping of a field of a type, without that of its interfaces. -/
def Registry.ownMapping? {φ ρ μ : Type} [SourceField φ] (r : Registry φ ρ μ) (path : List String)
    (name type : String) : Option (FieldMapping φ ρ μ) :=
  (r.objectMapping? path type).bind (·.field? name)

/-- The key columns that a type is mapped with itself, if there are any. -/
def Sql.Planning.ownKeys? (r : TableRegistry) (path : List String) (type : String) :
    Option (List ColumnRef) :=
  (r.objectMapping? path type).bind fun m =>
    let keys := m.fields.filterMap fun f => f.source?.bind (·.keyColumn?)
    if keys.isEmpty then none else some keys

/-- A look-up that is made by walks through interfaces. -/
inductive LookUp (φ ρ μ : Type) where
  | field (s : Schema) (type name : String)
  | subtype (s : Schema) (sub sup : String)
  | possibleTypes (s : Schema) (name : String)
  | fieldMapping (r : Registry φ ρ μ) (path : List String) (type name : String)
  | keyColumns (r : TableRegistry) (path : List String) (type : String)

namespace LookUp

variable {φ ρ μ : Type} [SourceField φ]

omit [SourceField φ] in
def schema : LookUp φ ρ μ → Schema
  | field s .. | subtype s .. | possibleTypes s _ => s
  | fieldMapping r .. => r.schema
  | keyColumns r .. => r.schema

/-- What holds of all walks of a look-up. The types that an interface stands for take a walk from
every object type, those of other types none. -/
def EveryWalk (P : {α : Type} → Schema → (String → Option α) → String → Prop) :
    LookUp φ ρ μ → Prop
  | field s type name => P s (s.ownField? name) type
  | subtype s sub sup => P s (s.isA? sup) sub
  | possibleTypes s name => ∀ d, s.find? name = some (.interface d) →
      ∀ o ∈ s.types, o.isObject = true → P s (s.isA? name) o.name
  | fieldMapping r path type name => P r.schema (r.ownMapping? path name) type
  | keyColumns r path type => P r.schema (Sql.Planning.ownKeys? r path) type

/-- What a look-up answers is what its walks tell when they end. -/
def AnsweredByWalks : LookUp φ ρ μ → Prop
  | field s type name => ∀ found?, s.Tells (s.ownField? name) type found? →
      s.field? type name = found?
  | subtype s sub sup => ∀ found?, s.Tells (s.isA? sup) sub found? →
      s.isSubtype sub sup = found?.isSome
  | possibleTypes s name => ∀ d, s.find? name = some (.interface d) →
      ∀ found? : TypeDefinition → Option Unit,
        (∀ o ∈ s.types, o.isObject = true → s.Tells (s.isA? name) o.name (found? o)) →
        s.possibleTypes name =
          (s.types.filter fun o => o.isObject && (found? o).isSome).map (·.name)
  | fieldMapping r path type name => ∀ found?,
      r.schema.Tells (r.ownMapping? path name) type found? →
      r.fieldMapping? path type name = found?
  | keyColumns r path type => ∀ found?,
      r.schema.Tells (Sql.Planning.ownKeys? r path) type found? →
      Sql.Planning.keyColumns r path type = found?.getD []

omit [SourceField φ] in
theorem isSubtype_of_tells {s : Schema} {sub sup : String} {found? : Option Unit}
    (h : s.Tells (s.isA? sup) sub found?) : s.isSubtype sub sup = found?.isSome :=
  congrArg Option.isSome (Schema.search_eq_of_tells h)

theorem answeredByWalks : ∀ l : LookUp φ ρ μ, l.AnsweredByWalks
  | field s type name => fun _ => Schema.search_eq_of_tells
  | subtype s sub sup => fun _ => isSubtype_of_tells
  | possibleTypes s name => fun d hd found? htells => by
    rw [Schema.possibleTypes, hd]
    refine congrArg (List.map TypeDefinition.name) (List.filter_congr fun o ho => ?_)
    cases hobject : o.isObject with
    | false => rfl
    | true => exact isSubtype_of_tells (htells o ho hobject)
  | fieldMapping r path type name => fun _ => Schema.search_eq_of_tells
  | keyColumns r path type => fun _ htells =>
    congrArg (fun keys? : Option (List ColumnRef) => keys?.getD [])
      (Schema.search_eq_of_tells htells)

/-- What is so for every walk over a schema is so for all walks of a look-up over it. -/
theorem EveryWalk.of_forall {P Q : {α : Type} → Schema → (String → Option α) → String → Prop}
    {l : LookUp φ ρ μ} (h : ∀ {α : Type} (test : String → Option α) (t : String),
      P l.schema test t → Q l.schema test t) (hl : l.EveryWalk P) : l.EveryWalk Q := by
  cases l with
  | field | subtype | fieldMapping | keyColumns => exact h _ _ hl
  | possibleTypes s name => exact fun d hd o ho hobject => h _ _ (hl d hd o ho hobject)

theorem everyWalk_true (l : LookUp φ ρ μ) : l.EveryWalk fun _ _ _ => True := by
  cases l with
  | field | subtype | fieldMapping | keyColumns => trivial
  | possibleTypes s name => exact fun _ _ _ _ _ => trivial

/-- Look-ups answer what their walks tell, and these have an end if and only if they come to no
type a second time: always where no type leads back to itself, and where nothing is found just if
none of the types that are reached does. -/
theorem walks_end_iff (l : LookUp φ ρ μ) :
    l.AnsweredByWalks ∧ (l.EveryWalk Schema.Ends ↔ l.EveryWalk Schema.NeverReturns) ∧
      (l.schema.Acyclic → l.EveryWalk Schema.Ends) ∧
      l.EveryWalk fun s test t => (∀ u, s.Reaches t u → test u = none) →
        (s.Ends test t ↔ ∀ u, s.Reaches t u → ¬ Relation.TransGen s.Implements u u) := by
  refine ⟨l.answeredByWalks, ⟨fun h => ?_, fun h => ?_⟩, fun hacyclic => ?_, ?_⟩
  · exact h.of_forall fun _ _ => Schema.ends_iff_neverReturns.1
  · exact h.of_forall fun _ _ => Schema.ends_iff_neverReturns.2
  · exact l.everyWalk_true.of_forall fun test t _ => hacyclic.ends test t
  · exact l.everyWalk_true.of_forall fun _ _ _ => Schema.ends_iff_of_miss

end LookUp

namespace Loops

def definition : TypeDefinition :=
  .object ⟨"Query", [⟨"a", [], .nullable (.named "Int")⟩], ["Query"]⟩

/-- A schema whose only type implements itself. -/
def schema : Schema := .ofTypes [definition] "Query"

def tokens : List Document.Token :=
  [.name "type", .name "Query", .name "implements", .name "Query", .punctuator '{', .name "a",
    .punctuator ':', .name "Int", .punctuator '}']

theorem scan_tokens :
    Document.Token.scan? "type Query implements Query { a: Int }" = some tokens := by
  decide +kernel

theorem declarations_of_tokens :
    (Document.Parser.itemsToEnd Document.declaration tokens.length).run tokens =
      some ([.type definition], []) := by
  cbv

theorem parse_schema : Schema.parse "type Query implements Query { a: Int }" = .ok schema := by
  rw [Schema.parse_of_tokens scan_tokens declarations_of_tokens rfl]
  rfl

theorem eq_query_of_reaches {u : String} (h : schema.Reaches "Query" u) : u = "Query" := by
  induction h with
  | refl => rfl
  | tail _ hi ih =>
    subst ih
    exact List.mem_singleton.1 hi

/-- The schema is accepted, and a field that it does not declare is looked for without an end. -/
theorem missing_field_has_no_end :
    Schema.parse "type Query implements Query { a: Int }" = .ok schema ∧
      ¬ schema.Ends (schema.ownField? "b") "Query" := by
  refine ⟨parse_schema, fun h => ?_⟩
  have hmiss : ∀ u, schema.Reaches "Query" u → schema.ownField? "b" u = none := fun u hu => by
    rw [eq_query_of_reaches hu]
    rfl
  exact (Schema.ends_iff_of_miss hmiss).1 h "Query" .refl (.single (List.mem_singleton_self _))

end Loops

end MappedQuery
