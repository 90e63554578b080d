import MappedQuery.Proofs.BoundArguments
import MappedQuery.Proofs.Readings
import MappedQuery.Proofs.TypeDescriptions

/-!
# The roots of introspection

`__schema` is read from the description of the schema, `__type` from the descriptions of its types:
the name that the argument is bound to was supplied, a filter keeps the descriptions that bear it,
and as a schema has one type for each name, at most one is left. So both are answered, with what the
request selects of a description or, where no type has the name, with null.
-/
namespace MappedQuery

namespace Value

theorem looselyEquals_string (a b : String) :
    (string a).looselyEquals (string b) = decide (a = b) := by
  by_cases h : a = b
  · subst h
    simp [looselyEquals, equals]
  · have hne : Ord.compare a b ≠ .eq := fun heq => h (Std.LawfulEqCmp.eq_of_compare heq)
    simp [looselyEquals, equals, compare, asString?, h, hne]

end Value

namespace Introspection

variable (s : Schema)

theorem objectMapping?_registry (path : List String) {o : ObjectDefinition}
    (ho : .object o ∈ schema.types) (hquery : o.name ≠ "Query") :
    (registry s).objectMapping? path o.name =
      some ⟨o.name, o.fields.map fun f => .source (.same f.name)⟩ := by
  have hmem := ho
  simp only [schema, Schema.ofTypes, List.mem_append, List.mem_map, List.mem_cons,
    List.not_mem_nil, or_false] at hmem
  rcases hmem with ⟨_, -, h⟩ | h | h | h | h | h | h | h | h | h <;> cases h
  · exact absurd rfl hquery
  all_goals rfl

/-- Introspection reads every member of what it describes by its name. -/
theorem plain : (registry s).Plain where
  flat := flat
  fields path object name f hobject hquery hf := by
    obtain ⟨o, ho⟩ := hobject
    have hname : o.name = object := Schema.name_of_find? ho
    subst hname
    change schema.field? o.name name = some f at hf
    rw [flat.field?_eq, Schema.ownField?, show schema.find? o.name = some (.object o) from ho] at hf
    have hfound : o.fields.find? (·.name = name) = some f := hf
    have hfname := List.find?_some hfound
    obtain rfl : f.name = name := of_decide_eq_true hfname
    rw [Registry.fieldMapping?_of_flat (r := registry s) flat,
      objectMapping?_registry s path (List.mem_of_find?_eq_some ho) hquery, Option.bind_some,
      ObjectMapping.field?, List.find?_map]
    change (o.fields.find? (·.name = f.name)).map _ = _
    rw [hfound]
    rfl
  encoder type := by
    refine List.findSome?_eq_none_iff.2 fun t ht => ?_
    rcases List.mem_cons.1 ht with rfl | ht
    · rfl
    · obtain ⟨d, -, rfl⟩ := List.mem_map.1 ht
      rfl

theorem plainBelow : (mapping s).PlainBelow where
  flat := flat
  elaborator type name htype := by
    cases h : (mapping s).elaborator? type name with
    | none => rfl
    | some elaborator =>
      cases List.mem_singleton.1 (Registry.mem_of_elaborator? h)
      exact absurd rfl htype
  delegate := resolve_ne_delegated s

theorem rootData?_schema : (registry s).rootData? [] "Query" "__schema" =
    some (schemaDocument s) := by
  rw [Registry.rootData?, Registry.fieldMapping?_of_flat (r := registry s) flat]
  rfl

theorem rootData?_type : (registry s).rootData? [] "Query" "__type" =
    some (.array (s.types.map (typeDocument s))) := by
  rw [Registry.rootData?, Registry.fieldMapping?_of_flat (r := registry s) flat]
  rfl

/-- The position of a description in the list of all types. -/
def position (d : TypeDefinition) : Cursor :=
  ⟨["__type"], .named "__Type", .document (registry s) (typeDocument s d)⟩

theorem isObject_type : schema.IsObject "__Type" := ⟨_, rfl⟩

theorem hasObject_position (d : TypeDefinition) :
    (position s d).HasObject (registry s) "__Type" (typeDocument s d) where
  focus := rfl
  declared := rfl
  isObject := isObject_type
  notQuery := (by decide : "__Type" ≠ "Query")
  fields _ _ hf := (matches_typeDocument s d).fields isObject_type hf

/-- A description bears the name of its type. -/
theorem follow_name (d : TypeDefinition) :
    (position s d).follow (mapping s) ["name"] = .ok (.string d.name) := by
  have hc := hasObject_position s d
  have hconcrete := hc.concreteType (plain s)
  obtain ⟨hresolve, hfield⟩ := Cursor.field_same hc.focus hconcrete
    ((plain s).fields _ _ "name" _ hc.isObject hc.notQuery rfl) rfl
  have hresolve' : (mapping s).resolve (position s d).path "__Type" "name" = .source := hresolve
  simp only [Cursor.follow, hconcrete, ok_bind, hresolve', hfield]
  rfl

/-- A description is told by the name of its type. -/
theorem holds_name (name : String) (d : TypeDefinition) :
    (Predicate.eq (.field "name") (.const (.string name))).holds (mapping s) (position s d) =
      .ok (decide (d.name = name)) := by
  rw [Predicate.holds, Predicate.equates, Term.field, Term.value, Term.value, follow_name]
  exact congrArg Except.ok (Value.looselyEquals_string d.name name)

/-- The position of all descriptions. -/
def listing : Cursor :=
  ⟨["__type"], .nullable (.named "__Type"),
    .document (registry s) (.array (s.types.map (typeDocument s)))⟩

theorem elements_listing : (listing s).elements = s.types.map (position s) := List.map_map

/-- The selection of the type of a name. -/
def byName (name : String) (child : Query) : Query :=
  .unique (.filter (.eq (.field "name") (.const (.string name))) child)

/-- What is shown of the type of a name: null without such a type. -/
def shownByName (name : String) (child : Query) : Json :=
  ((s.find? name).map fun d => child.shown schema (.named "__Type") (typeDocument s d)).getD .null

section ByName

variable {s : Schema} (hs : (s.types.map (·.name)).Nodup) (name : String) {child : Query}
include hs

theorem refine_byName (hchild : child.isListOperation = false) :
    (byName name child).refine (mapping s) ⟨(listing s).elements, false⟩ =
      .ok ⟨(s.find? name).toList.map (position s), true⟩ := by
  have hkept := satisfying_map (l := s.types) fun d _ => holds_name s name d
  rw [Schema.filter_name_eq_find? hs] at hkept
  rw [byName, Query.refine, Query.refine, elements_listing, hkept, ok_bind]
  cases child with
  | filter | unique | limit | orderBy => cases hchild
  | _ => rfl

/-- A type is read by its name. -/
theorem returns_byName (hchild : child.ChecksOn schema "__Type") (answers : Answers (mapping s)) :
    ((byName name child).value (mapping s) answers (listing s)).Returns
      (shownByName s name child) := by
  have hfields : Query.fields (mapping s) answers (byName name child) =
      Query.fields (mapping s) answers child := by
    funext c
    rw [byName, Query.fields, Query.fields]
  unfold Query.value Query.readAt
  rw [if_pos (show (byName name child).isListOperation = true from rfl), hfields]
  refine (Run.returns_ofExcept (refine_byName hs name hchild.not_isListOperation)).bind ?_
  dsimp only
  rw [if_pos rfl, shownByName]
  cases s.find? name with
  | none => exact Run.returns_pure _
  | some d =>
    exact Query.returns_readAs (plain s) (Query.readsShown_fields (plain s) child) rfl rfl
      (matches_typeDocument s d) (hasObject_position s d).notQuery hchild

end ByName

/-- Only texts are taken for the name of a type. -/
theorem eq_string_of_coerce {v : Value} {name : String}
    (h : v.coerce schema (.named "String") = .ok (.string name)) : v = .string name := by
  cases v with
  | string text =>
    cases h
    rfl
  | absent | null | int | float | boolean | id | enum | list | object | reference => cases h

/-- The name that the argument of `__type` is bound to was supplied. -/
theorem supplied_of_bound {f : FieldDefinition} (hf : schema.field? "Query" "__type" = some f)
    (root bound : Select) (hbound : f.bindArguments schema root.bindings = .ok bound.bindings)
    {name : String} (hname : bound.binding? "name" = some (.string name)) :
    root.binding? "name" = some (.string name) := by
  cases hf
  unfold FieldDefinition.bindArguments at hbound
  split at hbound
  · obtain ⟨values, hvalues, hbound⟩ := bind_eq_ok.1 hbound
    obtain hbindings := pure_eq_ok.1 hbound
    unfold bindInputs at hvalues
    split at hvalues
    · obtain ⟨v, hv, -⟩ := bind_eq_ok.1 hvalues
      cases hv
    · rename_i given others hextract
      split at hvalues
      · cases hvalues
      · obtain ⟨v, hv, hvalues⟩ := bind_eq_ok.1 hvalues
        obtain ⟨rest, -, hvalues⟩ := bind_eq_ok.1 hvalues
        obtain rfl := pure_eq_ok.1 hvalues
        have hfound := find?_of_extract? hextract
        rw [List.find?_map] at hfound
        obtain ⟨b, hb, rfl⟩ := Option.map_eq_some_iff.1 hfound
        rw [Select.binding?, ← hbindings] at hname
        obtain rfl : v = .string name := Option.some.inj hname
        rw [Select.binding?]
        change (root.bindings.find? (·.name = "name")).map _ = _
        change root.bindings.find? (·.name = "name") = some b at hb
        rw [hb, Option.map_some, eq_string_of_coerce hv]
  · cases hbound

/-- What a root of introspection is answered with: what it selects of a description of the schema or
of the type of a name, and null where no type has the name. -/
inductive Answers (root : Select) : Json → Prop
  | schema {doc : Json} (hroot : root.name = "__schema") (hdoc : DescribesSchema s doc) :
    Answers root (root.child.shown schema (.named "__Schema") doc)
  | type {name : String} {d : TypeDefinition} {doc : Json} {members : List (String × Json)}
    (hroot : root.name = "__type") (hname : root.binding? "name" = some (.string name))
    (hd : s.find? name = some d) (hdoc : DescribesType s d doc)
    (hmembers : root.child.shown Introspection.schema (.named "__Type") doc = .object members) :
    Answers root (.object members)
  | unknown {name : String} (hroot : root.name = "__type")
    (hname : root.binding? "name" = some (.string name)) (hd : s.find? name = none) :
    Answers root .null

/-- A root of introspection is answered in full: with an answer of the type that its field has. -/
structure IsAnswered (root left : Select) (doc : Json) : Prop where
  key : left.resultName = root.resultName
  notTypename : left.name ≠ "__typename"
  answers : Answers s root doc
  typed : Query.MemberTyped schema "Query" root doc
  returns : ((mapping s).readRoot "Query" left).Returns doc

variable {s} (hacyclic : s.Acyclic) (hs : (s.types.map (·.name)).Nodup)
include hacyclic hs

theorem isAnswered_schema {alias? : Option String} {bindings bindings' : List Binding}
    {child child' : Query} (hsame : Query.ShowsSame schema "__Schema" child child') :
    IsAnswered s ⟨"__schema", alias?, bindings, child⟩ ⟨"__schema", alias?, bindings', child'⟩
      (child.shown schema (.named "__Schema") (schemaDocument s)) where
  key := rfl
  notTypename := (by decide : "__schema" ≠ "__typename")
  answers := .schema rfl (describesSchema hacyclic hs)
  typed := .field rfl (Query.typed_shown flat (matches_schemaDocument s) hsame.written)
  returns := by
    rw [← Query.shown_congr (.named "__Schema") hsame.members]
    exact Query.returns_readRoot (plain s) ⟨"__schema", alias?, bindings', child'⟩ rfl
      (rootData?_schema s) (matches_schemaDocument s) hsame.left

theorem isAnswered_type {alias? : Option String} {bindings bindings' : List Binding}
    {child child' : Query} {name : String}
    (hname : Select.binding? ⟨"__type", alias?, bindings, child⟩ "name" = some (.string name))
    (hsame : Query.ShowsSame schema "__Type" child child') :
    IsAnswered s ⟨"__type", alias?, bindings, child⟩
      ⟨"__type", alias?, bindings', byName name child'⟩ (shownByName s name child) where
  key := rfl
  notTypename := (by decide : "__type" ≠ "__typename")
  answers := by
    rw [shownByName]
    cases hd : s.find? name with
    | none => exact .unknown rfl hname hd
    | some d =>
      obtain ⟨members, hmembers⟩ := Query.exists_shown_named isObject_type child (typeDocument s d)
      rw [Option.map_some, Option.getD_some, hmembers]
      exact .type rfl hname hd (describesType hacyclic hs (List.mem_of_find?_eq_some hd)) hmembers
  typed := by
    refine .field rfl ?_
    rw [shownByName]
    cases s.find? name with
    | none => exact .null
    | some d => exact .present (Query.typed_shown flat (matches_typeDocument s d) hsame.written)
  returns := by
    have hopen := Mapping.returns_openRoot (r := registry s)
      ⟨"__type", alias?, bindings', byName name child'⟩ (rootData?_type s) rfl
    have hshown : shownByName s name child = shownByName s name child' := by
      unfold shownByName
      simp only [Query.shown_congr (.named "__Type") hsame.members]
    rw [Mapping.readRoot, hshown]
    exact hopen.bind (returns_byName hs name hsame.left _)

omit hacyclic hs in
theorem exists_name_of_typeByName {left : Select} {q : Query} (h : typeByName left = .ok q) :
    ∃ name, left.binding? "name" = some (.string name) ∧
      q = (⟨left.name, left.alias?, left.bindings, byName name left.child⟩ : Select).toQuery := by
  unfold typeByName at h
  split at h
  · rename_i name hname
    exact ⟨name, hname, (Except.ok.inj h).symm⟩
  · cases h

/-- A root of introspection that is elaborated without problems is answered. -/
theorem exists_isAnswered (root : Select) {q : Query}
    (hroot : root.toQuery.isIntrospectionRoot = true) (hwritten : root.child.isWritten = true)
    (h : root.toQuery.elaborate (mapping s) "Query" [] = .success q) :
    ∃ left doc, q = left.toQuery ∧ IsAnswered s root left doc := by
  obtain ⟨name, alias?, bindings, child⟩ := root
  have hname : name = "__schema" ∨ name = "__type" := by
    simpa [Query.isIntrospectionRoot, Query.introspectionRoots, Select.toQuery] using hroot
  obtain ⟨htypename, -⟩ | ⟨f, bindings', child', hf, hbound, hchild, happlied⟩ :=
    Query.elaborate_select_eq_success
      (Mapping.delegateTarget?_eq_none (resolve_ne_delegated s _ _ _)) h
  · subst htypename
    exact absurd hname (by decide)
  · have hsame := Query.showsSame_elaborate (plainBelow s) (flat.field?_ne_queryType hf) hwritten
      hchild
    rcases hname with rfl | rfl
    · cases hf
      obtain rfl := Option.some.inj (congrArg Outcome.value? happlied)
      exact ⟨_, _, rfl, isAnswered_schema hacyclic hs hsame⟩
    · have hreplaced : Query.applyElaborator (some typeByName)
          ⟨"__type", alias?, bindings', child'⟩ = .success q := happlied
      unfold Query.applyElaborator at hreplaced
      dsimp only at hreplaced
      split at hreplaced
      · rename_i made hmade
        obtain ⟨name, hname, rfl⟩ := exists_name_of_typeByName hmade
        obtain rfl := Option.some.inj (congrArg Outcome.value? hreplaced)
        have hsupplied := supplied_of_bound hf ⟨"__type", alias?, bindings, child⟩
          ⟨"__type", alias?, bindings', child'⟩ hbound hname
        cases hf
        exact ⟨_, _, rfl, isAnswered_type hacyclic hs hsupplied hsame⟩
      · exact absurd hreplaced Query.dropped_ne_success

end Introspection

end MappedQuery
