import MappedQuery.Proofs.Ancestry
import MappedQuery.Proofs.Supply

/-!
# The types of narrowed positions

A fragment reads a position as another type, and what is known of the object there is asked again of
the data. For a fragment on an object type there is nothing to ask. For one on an abstract type the
data must tell the type of the object: a document by its type name, rows by the discriminator of the
type that the fragment is on, if its column was selected. A position that is abstract itself has been
told the type already, by the same name or discriminator; one of an object type need not have been,
and a fragment on an interface of the object then fails, although it applies.
-/
namespace MappedQuery

open Sql

namespace Cursor

/-- The data at a position tell that the object there is of a concrete type, if it is read as an
abstract one. -/
inductive Tells (c : Cursor) (type : String) : String → Prop
  | document {r : DocumentRegistry} {json : Json} {concrete : String}
    (hfocus : c.focus = .document r json)
    (htold : json.get? typenameKey = some (.string concrete)) : Tells c type concrete
  | rows {r : TableRegistry} {g : RowGroup} {column : ColumnRef} {cases : List (Value × String)}
    {place : Nat} {choice : Value × String} (hfocus : c.focus = .table r (.rows g))
    (hmapped : r.fieldMapping? c.path type TableField.discriminatorName =
      some (.source (.discriminator column cases)))
    (hselected : g.node.column? column.column = some place)
    (htold : cases.find? (fun choice => choice.1.looselyEquals (g.firstCell place).toValue) =
      some choice) : Tells c type choice.2

variable {c : Cursor} {type t : String}

theorem documentType_eq_ok {json : Json} : c.documentType json type = .ok t ↔
    json.get? typenameKey = some (.string t) := by
  unfold documentType
  cases hget : json.get? typenameKey with
  | none => simp
  | some j => cases j <;> simp [Json.asString?]

theorem entityType_eq_ok {r : TableRegistry} {e : Extent} (hfocus : c.focus = .table r e) :
    c.entityType r e type = .ok t ↔ c.Tells type t := by
  constructor
  · intro h
    unfold entityType at h
    split at h
    · rename_i column cases hmapped
      obtain ⟨cell, hcell, htype⟩ := bind_eq_ok.1 h
      dsimp only at htype
      split at htype
      · rename_i value told hfound
        cases e with
        | cell _ => cases hcell
        | rows g =>
          rw [columnCell] at hcell
          split at hcell
          · rename_i place hselected
            cases hcell
            obtain rfl := pure_eq_ok.1 htype
            exact .rows hfocus hmapped hselected hfound
          · cases hcell
      · cases htype
    · cases h
  · intro h
    cases h with
    | document hdocument => cases hfocus.symm.trans hdocument
    | @rows _ g column cases place choice hrows hmapped hselected htold =>
      cases hfocus.symm.trans hrows
      rw [entityType, hmapped]
      refine bind_eq_ok.2 ⟨g.firstCell place, by rw [columnCell, hselected], ?_⟩
      dsimp only
      rw [htold]
      rfl

/-- A position that is read as an abstract type has the concrete type that the data tell. -/
theorem concreteType_of_isAbstract (hdeclared : c.type.underlying = type)
    (h : c.schema.isAbstract type = true) : c.concreteType = .ok t ↔ c.Tells type t := by
  rw [concreteType, hdeclared, if_pos h]
  cases hfocus : c.focus with
  | table r e => exact entityType_eq_ok hfocus
  | document r json =>
    refine documentType_eq_ok.trans ⟨.document hfocus, fun h => ?_⟩
    cases h with
    | document hdocument htold =>
      cases hfocus.symm.trans hdocument
      exact htold
    | rows hrows => cases hfocus.symm.trans hrows

/-- Reading the position as a type asks the data what reading it as its declared type does. -/
def AskedAlike (c : Cursor) (type : String) : Prop :=
  ∀ r e, c.focus = .table r e → r.fieldMapping? c.path type TableField.discriminatorName =
    r.fieldMapping? c.path c.type.underlying TableField.discriminatorName

theorem Tells.of_alike (h : c.Tells c.type.underlying t) (halike : c.AskedAlike type) :
    c.Tells type t := by
  cases h with
  | document hfocus htold => exact .document hfocus htold
  | rows hfocus hmapped hselected htold =>
    exact .rows hfocus ((halike _ _ hfocus).trans hmapped) hselected htold

/-- What the data tell does not depend on the type that the position is read as. -/
theorem tells_withType {declared : TypeRef} :
    ({ c with type := declared } : Cursor).Tells type t ↔ c.Tells type t := by
  constructor
  all_goals
    intro h
    cases h with
    | document hfocus htold => exact .document hfocus htold
    | rows hfocus hmapped hselected htold => exact .rows hfocus hmapped hselected htold

theorem concreteType_of_not_isAbstract (h : c.schema.isAbstract c.type.underlying = false) :
    c.concreteType = .ok c.type.underlying := by
  rw [concreteType, h]
  rfl

theorem narrow_of_narrowsTo (h : c.narrowsTo type = true) :
    ∃ t, c.concreteType = .ok t ∧ c.schema.isSubtype t type = true ∧
      c.narrow type = .ok { c with type := .named type } := by
  have hnarrow : c.narrow type = .ok { c with type := .named type } := by rw [narrow, if_pos h]
  unfold narrowsTo at h
  split at h
  · rename_i t htype
    exact ⟨t, htype, h, hnarrow⟩
  · cases h

/-- A position that a fragment applies to can be narrowed. It keeps its concrete type if and only if
the fragment is on an object type or the data tell the type, as they do wherever the position is
abstract itself and asks the same of them. A fragment that selects a field fails where the narrowed
position has no type. -/
theorem narrowed_keeps_type_iff (hs : c.schema.ImplementsInterfaces)
    (h : c.narrowsTo type = true) :
    ∃ t narrowed, c.concreteType = .ok t ∧ c.narrow type = .ok narrowed ∧
      (narrowed.concreteType = .ok t ↔ (c.schema.isAbstract type = true → c.Tells type t)) ∧
      (c.schema.isAbstract c.type.underlying = true → c.AskedAlike type →
        narrowed.concreteType = .ok t) ∧
      ∀ (m : Mapping) (answers : Answers m) (name : String) (alias? : Option String)
        (bindings : List Binding) (child : Query) (f : Fault),
        narrowed.concreteType = .error f →
          (Query.narrow type (.select name alias? bindings child)).fields m answers c =
            throw f := by
  obtain ⟨t, htype, hsubtype, hnarrow⟩ := narrow_of_narrowsTo h
  have hkept : ({ c with type := .named type } : Cursor).concreteType = .ok t ↔
      (c.schema.isAbstract type = true → c.Tells type t) := by
    cases habstract : c.schema.isAbstract type with
    | true =>
      rw [concreteType_of_isAbstract rfl habstract, tells_withType]
      exact ⟨fun htold _ => htold, fun htold => htold rfl⟩
    | false =>
      rw [concreteType_of_not_isAbstract habstract, hs.eq_of_isSubtype habstract hsubtype]
      exact ⟨fun _ hfalse => absurd hfalse Bool.false_ne_true, fun _ => rfl⟩
  refine ⟨t, _, htype, hnarrow, hkept, fun habstract halike => ?_,
    fun m answers name alias? bindings child f hf => ?_⟩
  · exact hkept.2 fun _ => ((concreteType_of_isAbstract rfl habstract).1 htype).of_alike halike
  · have hfails : (Query.select name alias? bindings child).fields m answers
        { c with type := .named type } = throw f := by
      rw [Query.fields, hf]
      rfl
    rw [Query.fields, if_pos h, hnarrow]
    exact hfails

end Cursor

namespace Crew

/-- A human who is a character. -/
def registry : DocumentRegistry where
  schema := Schema.ofTypes [
    .object ⟨"Query", [⟨"pilot", [], .named "Human"⟩], []⟩,
    .interface ⟨"Character", [⟨"name", [], .named "String"⟩], []⟩,
    .object ⟨"Human", [⟨"name", [], .named "String"⟩], ["Character"]⟩] "Query"
  types := [
    .object ⟨"Query", [.root "pilot" (.object [("name", .string "Han")])]⟩,
    .object ⟨"Human", [.source (.same "name")]⟩]
  elaborators := []

/-- The pilot, read as a type. -/
def pilot (declared : String) (members : List (String × Json)) : Cursor :=
  ⟨["pilot"], .named declared, .document registry (.object members)⟩

theorem implementsInterfaces : registry.schema.ImplementsInterfaces := by
  refine Schema.implementsInterfaces_of_types fun d hd b hb => ?_
  simp only [registry, Schema.ofTypes, List.mem_append, List.mem_map, List.mem_cons,
    List.not_mem_nil, or_false] at hd
  rcases hd with ⟨_, -, rfl⟩ | rfl | rfl | rfl
  · cases hb
  · cases hb
  · cases hb
  · obtain rfl : b = "Character" := List.mem_singleton.1 hb
    exact ⟨_, rfl⟩

/-- A pilot with a type name is still a human as a character; one without is none. -/
theorem pilot_keeps_type :
    registry.schema.ImplementsInterfaces ∧
      (pilot "Human" [("name", .string "Han")]).narrowsTo "Character" = true ∧
      (pilot "Character" [("name", .string "Han")]).concreteType =
        .error (.interpreter (.noTypename "Character" ["pilot"])) ∧
      (∀ answers : Answers (.documents registry),
        (Query.narrow "Character" (.field "name")).fields (.documents registry) answers
            (pilot "Human" [("name", .string "Han")]) =
          throw (.interpreter (.noTypename "Character" ["pilot"]))) ∧
      (pilot "Human" [("__typename", .string "Human")]).narrowsTo "Character" = true ∧
      (pilot "Character" [("__typename", .string "Human")]).concreteType = .ok "Human" := by
  have huntold : (pilot "Human" [("name", .string "Han")]).narrowsTo "Character" = true := by rfl
  have htold : (pilot "Human" [("__typename", .string "Human")]).narrowsTo "Character" = true := by
    rfl
  have hfault : (pilot "Character" [("name", .string "Han")]).concreteType =
      .error (.interpreter (.noTypename "Character" ["pilot"])) := by rfl
  obtain ⟨_, narrowed, -, hnarrow, -, -, hfails⟩ :=
    Cursor.narrowed_keeps_type_iff (c := pilot "Human" [("name", .string "Han")])
      implementsInterfaces huntold
  obtain rfl : pilot "Character" [("name", .string "Han")] = narrowed := Except.ok.inj hnarrow
  obtain ⟨t, narrowed, htype, hnarrow, hkept, -⟩ :=
    Cursor.narrowed_keeps_type_iff (c := pilot "Human" [("__typename", .string "Human")])
      implementsInterfaces htold
  obtain rfl : pilot "Character" [("__typename", .string "Human")] = narrowed :=
    Except.ok.inj hnarrow
  obtain rfl : "Human" = t := Except.ok.inj htype
  exact ⟨implementsInterfaces, huntold, hfault,
    fun answers => hfails _ answers _ _ _ _ _ hfault, htold,
    hkept.2 fun _ => .document rfl rfl⟩

end Crew

end MappedQuery
