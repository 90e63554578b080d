import MappedQuery.Proofs.SeenDocuments
import MappedQuery.Schema.Declared

/-!
# Descriptions of types

What introspection knows of a schema is one document, in which every type has a description. The
description tells the kind and the name of its type, and in the order of the declaration the fields
with their arguments and types, the interfaces, the possible types, the enumeration values and the
input fields, each of them only where the type has such. All these documents match the types of the
schema of introspection.
-/
namespace MappedQuery

namespace Schema

/-- A declaration that is accepted leaves one type for each name. -/
theorem nodup_names_declare {types types' : List TypeDefinition} {d : TypeDefinition}
    (htypes : (types.map (·.name)).Nodup) (h : declare types d = .ok types') :
    (types'.map (·.name)).Nodup := by
  unfold declare at h
  split at h
  · split at h
    · obtain rfl := Except.ok.inj h
      have hnames : (types.map fun t => if t.name = d.name then d else t).map (·.name) =
          types.map (·.name) := by
        rw [List.map_map]
        refine List.map_congr_left fun t _ => ?_
        by_cases ht : t.name = d.name <;> simp [ht]
      rwa [hnames]
    · cases h
  · rename_i hnew
    obtain rfl := Except.ok.inj h
    rw [List.map_append, List.map_singleton, List.nodup_append]
    refine ⟨htypes, List.nodup_singleton _, fun name hname other hother => ?_⟩
    obtain ⟨t, ht, rfl⟩ := List.mem_map.1 hname
    rw [List.mem_singleton.1 hother]
    intro heq
    exact hnew (List.any_eq_true.2 ⟨t, ht, decide_eq_true heq⟩)

/-- What holds of the built-in types and is kept by each declaration holds of the types of a schema
that is accepted. -/
theorem types_induction {P : List TypeDefinition → Prop} {text : String} {s : Schema}
    (h : parse text = .ok s) (scalars : P (builtinScalars.map .scalar))
    (declared : ∀ declarations, Document.Declaration.parse? text = some declarations →
      ∀ d, .type d ∈ declarations → ∀ {types types' : List TypeDefinition}, P types →
        declare types d = .ok types' → P types') : P s.types := by
  have hfold {definitions types types' : List TypeDefinition}
      (hstep : ∀ d ∈ definitions, ∀ {types types' : List TypeDefinition}, P types →
        declare types d = .ok types' → P types')
      (htypes : P types) (h : definitions.foldlM declare types = .ok types') : P types' := by
    induction definitions generalizing types with
    | nil =>
      obtain rfl := pure_eq_ok.1 h
      exact htypes
    | cons d rest ih =>
      rw [List.foldlM_cons] at h
      obtain ⟨more, hmore, h⟩ := bind_eq_ok.1 h
      obtain ⟨hd, hrest⟩ := List.forall_mem_cons.1 hstep
      exact ih hrest (hd htypes hmore) h
  unfold parse at h
  split at h
  · rename_i declarations hdeclarations
    obtain ⟨types, htypes, h⟩ := bind_eq_ok.1 h
    have hs : s.types = types := by
      unfold checkReferences at h
      split at h
      · cases h
      · split at h
        · cases h
        · rw [← Except.ok.inj h]
    rw [hs]
    refine hfold (fun d hd => declared declarations hdeclarations d ?_) scalars htypes
    obtain ⟨declaration, hmem, heq⟩ := List.mem_filterMap.1 hd
    cases declaration <;> cases heq
    exact hmem
  · cases h

/-- A schema that is accepted has one type for each name. -/
theorem nodup_names_of_parse {text : String} {s : Schema} (h : parse text = .ok s) :
    (s.types.map (·.name)).Nodup :=
  types_induction h (by decide) fun _ _ _ _ => nodup_names_declare

/-- Where each name has one type, a type is selected by its name. -/
theorem filter_name_eq_find? {s : Schema} (hs : (s.types.map (·.name)).Nodup) (name : String) :
    s.types.filter (·.name = name) = (s.find? name).toList := by
  rw [find?]
  generalize s.types = types at hs
  induction types with
  | nil => rfl
  | cons d rest ih =>
    obtain ⟨hfresh, hrest⟩ := List.nodup_cons.1 hs
    rw [List.filter_cons, List.find?_cons]
    by_cases hd : d.name = name
    · have hnone : rest.filter (·.name = name) = [] := by
        refine List.filter_eq_nil_iff.2 fun t ht hname => hfresh ?_
        exact List.mem_map.2 ⟨t, ht, (of_decide_eq_true hname).trans hd.symm⟩
      simp [hd, hnone]
    · simp [hd, ih hrest]

theorem find?_of_mem {s : Schema} (hs : (s.types.map (·.name)).Nodup) {d : TypeDefinition}
    (hd : d ∈ s.types) : s.find? d.name = some d := by
  have hmem : d ∈ s.types.filter (·.name = d.name) := List.mem_filter.2 ⟨hd, decide_eq_true rfl⟩
  rw [filter_name_eq_find? hs] at hmem
  exact Option.mem_toList.1 hmem

/-- The object types that an abstract type stands for: the members of a union, and for an interface
those that implement it, directly or not, in the order of their declarations. -/
inductive StandsFor (s : Schema) : TypeDefinition → List String → Prop
  | union {name : String} {members : List String} : StandsFor s (.union name members) members
  | interface {o : ObjectDefinition} {names : List String}
    (hordered : names.Sublist (s.types.map (·.name)))
    (hnames : ∀ name, name ∈ names ↔ s.IsObject name ∧ s.Reaches name o.name) :
    StandsFor s (.interface o) names

theorem standsFor_possibleTypes {s : Schema} (hacyclic : s.Acyclic)
    (hs : (s.types.map (·.name)).Nodup) {d : TypeDefinition} (hd : d ∈ s.types)
    (habstract : d.isAbstract = true) : s.StandsFor d (s.possibleTypes d.name) := by
  have hfind := find?_of_mem hs hd
  rw [possibleTypes, hfind]
  cases d with
  | scalar | object | enum | input => cases habstract
  | union name members => exact .union
  | interface o =>
    have hsubtype (name : String) : s.isSubtype name o.name = true ↔ s.Reaches name o.name := by
      rw [hacyclic.isSubtype_iff, unionMembers, show s.find? o.name = _ from hfind]
      constructor
      · rintro ⟨u, hu, rfl | hmember⟩
        · exact hu
        · cases hmember
      · exact fun h => ⟨_, h, .inl rfl⟩
    refine .interface (List.filter_sublist.map _) fun name => ?_
    rw [List.mem_map]
    constructor
    · rintro ⟨t, ht, rfl⟩
      obtain ⟨hmem, htest⟩ := List.mem_filter.1 ht
      obtain ⟨hobject, hsub⟩ := Bool.and_eq_true_iff.1 htest
      cases t with
      | object p => exact ⟨⟨p, find?_of_mem hs hmem⟩, (hsubtype _).1 hsub⟩
      | _ => cases hobject
    · rintro ⟨⟨p, hp⟩, hreaches⟩
      have hname := name_of_find? hp
      refine ⟨_, List.mem_filter.2 ⟨List.mem_of_find?_eq_some hp, ?_⟩, hname⟩
      rw [hname]
      exact Bool.and_eq_true_iff.2 ⟨rfl, (hsubtype name).2 hreaches⟩

/-- Where types stand for themselves only, an object is looked at field by field. -/
theorem Flat.matches_object {s : Schema} (hs : s.Flat) {o : ObjectDefinition}
    (ho : s.find? o.name = some (.object o)) {members : List (String × Json)}
    (h : ∀ f ∈ o.fields, s.Matches f.type (((Json.object members).get? f.name).getD .null)) :
    s.Matches (.named o.name) (.object members) := by
  refine .object ⟨o, ho⟩ fun name f hf => ?_
  rw [hs.field?_eq, ownField?, ho] at hf
  have hname := List.find?_some hf
  obtain rfl : f.name = name := of_decide_eq_true hname
  exact h f (List.mem_of_find?_eq_some hf)

theorem matches_map {s : Schema} {α : Type} {item : TypeRef} {document : α → Json}
    (h : ∀ a, s.Matches item (document a)) (l : List α) :
    s.Matches (.list item) (.array (l.map document)) := by
  refine .list fun doc hdoc => ?_
  obtain ⟨a, -, rfl⟩ := List.mem_map.1 hdoc
  exact h a

end Schema

namespace Introspection

/-- Part of a document lists documents of items, in order. -/
def Lists {α : Type} (R : α → Json → Prop) (items : List α) (part? : Option Json) : Prop :=
  ∃ docs, part? = some (.array docs) ∧ List.Forall₂ R items docs

theorem lists_of_mem {α : Type} {R : α → Json → Prop} {document : α → Json} {items : List α}
    (h : ∀ a ∈ items, R a (document a)) : Lists R items (some (.array (items.map document))) :=
  ⟨_, rfl, List.forall₂_map_right_iff.2 (List.forall₂_same.2 h)⟩

theorem lists_map {α : Type} {R : α → Json → Prop} {document : α → Json}
    (h : ∀ a, R a (document a)) (items : List α) :
    Lists R items (some (.array (items.map document))) :=
  lists_of_mem fun a _ => h a

/-- A document bears a name. -/
def Bears (name : String) (doc : Json) : Prop := doc.get? "name" = some (.string name)

theorem bears_enumValueDocument (name : String) : Bears name (enumValueDocument name) := rfl

theorem bears_directiveDocument (name : String) : Bears name (directiveDocument name) := rfl

section Descriptions

variable (s : Schema)

/-- The kind of the type of a name; what a schema does not have counts as a scalar. -/
def kindOf (name : String) : String := ((s.find? name).map (·.kind)).getD "SCALAR"

/-- A document refers to the type of a name. -/
structure Names (name : String) (doc : Json) : Prop where
  kind : doc.get? "kind" = some (.string (kindOf s name))
  name : Bears name doc

/-- A document refers to a type, wrapper by wrapper. -/
inductive RefersTo : TypeRef → Json → Prop
  | named {name : String} {doc : Json} (h : Names s name doc) :
    RefersTo (.nullable (.named name)) doc
  | list {item : TypeRef} {doc inner : Json} (hkind : doc.get? "kind" = some (.string "LIST"))
    (hinner : doc.get? "ofType" = some inner) (h : RefersTo item inner) :
    RefersTo (.nullable (.list item)) doc
  | nested {t : TypeRef} {doc : Json} (h : RefersTo (.nullable t) doc) :
    RefersTo (.nullable (.nullable t)) doc
  | nonNull {t : TypeRef} {doc inner : Json} (ht : t.isNullable = false)
    (hkind : doc.get? "kind" = some (.string "NON_NULL"))
    (hinner : doc.get? "ofType" = some inner) (h : RefersTo (.nullable t) inner) : RefersTo t doc

/-- A document describes an argument or an input field. -/
structure DescribesInput (i : InputDefinition) (doc : Json) : Prop where
  name : Bears i.name doc
  type : ∃ reference, doc.get? "type" = some reference ∧ RefersTo s i.type reference
  default : doc.get? "defaultValue" =
    some ((i.default?.map fun v => .string v.display).getD .null)

structure DescribesField (f : FieldDefinition) (doc : Json) : Prop where
  name : Bears f.name doc
  arguments : Lists (DescribesInput s) f.arguments (doc.get? "args")
  type : ∃ reference, doc.get? "type" = some reference ∧ RefersTo s f.type reference

/-- A document describes a type: what the type does not have is null. -/
structure DescribesType (d : TypeDefinition) (doc : Json) : Prop where
  kind : doc.get? "kind" = some (.string d.kind)
  name : Bears d.name doc
  fields : (∃ o, d = .object o ∨ d = .interface o) ∧
      Lists (DescribesField s) d.fields (doc.get? "fields") ∧
        Lists (Names s) d.interfaces (doc.get? "interfaces") ∨
    (∀ o, d ≠ .object o ∧ d ≠ .interface o) ∧ doc.get? "fields" = some .null ∧
      doc.get? "interfaces" = some .null
  possibleTypes : (∃ names, s.StandsFor d names ∧
      Lists (Names s) names (doc.get? "possibleTypes")) ∨
    d.isAbstract = false ∧ doc.get? "possibleTypes" = some .null
  enumValues : (∃ name values, d = .enum name values ∧
      Lists Bears values (doc.get? "enumValues")) ∨
    (∀ name values, d ≠ .enum name values) ∧ doc.get? "enumValues" = some .null
  inputFields : (∃ o, d = .input o ∧
      Lists (DescribesInput s) o.fields (doc.get? "inputFields")) ∨
    (∀ o, d ≠ .input o) ∧ doc.get? "inputFields" = some .null
  ofType : doc.get? "ofType" = some .null

/-- A document describes a schema: all its types in order, and the two directives. -/
structure DescribesSchema (doc : Json) : Prop where
  types : Lists (DescribesType s) s.types (doc.get? "types")
  queryType : ∃ reference, doc.get? "queryType" = some reference ∧ Names s s.queryType reference
  mutationType : doc.get? "mutationType" = some .null
  subscriptionType : doc.get? "subscriptionType" = some .null
  directives : Lists Bears ["skip", "include"] (doc.get? "directives")

end Descriptions

section Documents

variable (s : Schema)

theorem names_namedReference (name : String) : Names s name (namedReference s name) := ⟨rfl, rfl⟩

mutual

theorem refersTo_typeReference : ∀ t : TypeRef, RefersTo s t (typeReference s t)
  | .nullable inner => by
    rw [typeReference]
    exact refersTo_bareReference inner
  | .named name => by
    rw [typeReference]
    exact .nonNull rfl rfl rfl (.named (names_namedReference s name))
  | .list item => by
    rw [typeReference]
    exact .nonNull rfl rfl rfl (.list rfl rfl (refersTo_typeReference item))

theorem refersTo_bareReference : ∀ t : TypeRef, RefersTo s (.nullable t) (bareReference s t)
  | .named name => by
    rw [bareReference]
    exact .named (names_namedReference s name)
  | .list item => by
    rw [bareReference]
    exact .list rfl rfl (refersTo_typeReference item)
  | .nullable inner => by
    rw [bareReference]
    exact .nested (refersTo_bareReference inner)

end

theorem describesInput (i : InputDefinition) : DescribesInput s i (inputDocument s i) :=
  ⟨rfl, ⟨_, rfl, refersTo_typeReference s i.type⟩, rfl⟩

theorem describesField (f : FieldDefinition) : DescribesField s f (fieldDocument s f) :=
  ⟨rfl, lists_map (describesInput s) f.arguments, ⟨_, rfl, refersTo_typeReference s f.type⟩⟩

variable {s} (hacyclic : s.Acyclic) (hs : (s.types.map (·.name)).Nodup)
include hacyclic hs

/-- The document of a type describes it. -/
theorem describesType {d : TypeDefinition} (hd : d ∈ s.types) :
    DescribesType s d (typeDocument s d) where
  kind := rfl
  name := rfl
  fields := by
    cases d with
    | object o =>
      exact .inl ⟨⟨o, .inl rfl⟩, lists_map (describesField s) o.fields,
        lists_map (names_namedReference s) o.interfaces⟩
    | interface o =>
      exact .inl ⟨⟨o, .inr rfl⟩, lists_map (describesField s) o.fields,
        lists_map (names_namedReference s) o.interfaces⟩
    | scalar | union | enum | input => exact .inr ⟨fun _ => ⟨nofun, nofun⟩, rfl, rfl⟩
  possibleTypes := by
    have hpossible := lists_map (names_namedReference s) (s.possibleTypes d.name)
    have hstands := Schema.standsFor_possibleTypes hacyclic hs hd
    cases d with
    | interface | union => exact .inl ⟨_, hstands rfl, hpossible⟩
    | scalar | object | enum | input => exact .inr ⟨rfl, rfl⟩
  enumValues := by
    cases d with
    | enum name values => exact .inl ⟨name, values, rfl, lists_map bears_enumValueDocument values⟩
    | scalar | object | interface | union | input => exact .inr ⟨nofun, rfl⟩
  inputFields := by
    cases d with
    | input o => exact .inl ⟨o, rfl, lists_map (describesInput s) o.fields⟩
    | scalar | object | interface | union | enum => exact .inr ⟨nofun, rfl⟩
  ofType := rfl

theorem describesSchema : DescribesSchema s (schemaDocument s) where
  types := lists_of_mem fun _ => describesType hacyclic hs
  queryType := ⟨_, rfl, names_namedReference s s.queryType⟩
  mutationType := rfl
  subscriptionType := rfl
  directives := lists_map bears_directiveDocument ["skip", "include"]

end Documents

/-- The schema of introspection has objects and leaves only. -/
theorem flat : schema.Flat where
  interfaces := by decide
  concrete := by decide
  queryFields := by decide

section Matching

theorem matches_text (text : String) : schema.Matches (.named "String") (.string text) := .text rfl

/-- A description of a type is looked at member by member. -/
theorem matches_type {t : TypeDocument}
    (hkind : schema.Matches (.named "__TypeKind") (.string t.kind))
    (hname : schema.Matches (.nullable (.named "String")) t.name)
    (hfields : schema.Matches (.nullable (.list (.named "__Field"))) t.fields)
    (hinterfaces : schema.Matches (.nullable (.list (.named "__Type"))) t.interfaces)
    (hpossible : schema.Matches (.nullable (.list (.named "__Type"))) t.possibleTypes)
    (hvalues : schema.Matches (.nullable (.list (.named "__EnumValue"))) t.enumValues)
    (hinputs : schema.Matches (.nullable (.list (.named "__InputValue"))) t.inputFields)
    (hofType : schema.Matches (.nullable (.named "__Type")) t.ofType) :
    schema.Matches (.named "__Type") t.toJson := by
  refine flat.matches_object (o := ⟨"__Type", _, []⟩) rfl ?_
  simp only [List.forall_mem_cons]
  exact ⟨hkind, hname, .null, hfields, hinterfaces, hpossible, hvalues, hinputs, hofType, .null,
    nofun⟩

theorem matches_reference {kind : String} {name ofType : Json}
    (hkind : schema.Matches (.named "__TypeKind") (.string kind))
    (hname : schema.Matches (.nullable (.named "String")) name)
    (hofType : schema.Matches (.nullable (.named "__Type")) ofType) :
    schema.Matches (.named "__Type") (TypeDocument.reference kind name ofType).toJson :=
  matches_type hkind hname .null .null .null .null .null hofType

theorem matches_wrapper {kind : String} {ofType : Json}
    (hkind : schema.Matches (.named "__TypeKind") (.string kind))
    (hofType : schema.Matches (.named "__Type") ofType) :
    schema.Matches (.named "__Type") (wrapper kind ofType) :=
  matches_reference hkind .null (.present hofType)

theorem matches_kind (d : TypeDefinition) :
    schema.Matches (.named "__TypeKind") (.string d.kind) := by
  cases d <;> exact .text rfl

variable (s : Schema)

theorem matches_namedReference (name : String) :
    schema.Matches (.named "__Type") (namedReference s name) := by
  refine matches_reference ?_ (.present (matches_text name)) .null
  cases s.find? name with
  | none => exact .text rfl
  | some d => exact matches_kind d

mutual

theorem matches_typeReference : ∀ t : TypeRef,
    schema.Matches (.named "__Type") (typeReference s t)
  | .nullable inner => by
    rw [typeReference]
    exact matches_bareReference inner
  | .named name => by
    rw [typeReference]
    exact matches_wrapper (.text rfl) (matches_namedReference s name)
  | .list item => by
    rw [typeReference]
    exact matches_wrapper (.text rfl) (matches_wrapper (.text rfl) (matches_typeReference item))

theorem matches_bareReference : ∀ t : TypeRef,
    schema.Matches (.named "__Type") (bareReference s t)
  | .named name => by
    rw [bareReference]
    exact matches_namedReference s name
  | .list item => by
    rw [bareReference]
    exact matches_wrapper (.text rfl) (matches_typeReference item)
  | .nullable inner => by
    rw [bareReference]
    exact matches_bareReference inner

end

theorem matches_inputDocument (i : InputDefinition) :
    schema.Matches (.named "__InputValue") (inputDocument s i) := by
  refine flat.matches_object (o := ⟨"__InputValue", _, []⟩) rfl ?_
  simp only [List.forall_mem_cons]
  refine ⟨matches_text i.name, .null, matches_typeReference s i.type, ?_, nofun⟩
  change schema.Matches (.nullable (.named "String"))
    ((i.default?.map fun v => Json.string v.display).getD .null)
  cases i.default? with
  | none => exact .null
  | some v => exact .present (matches_text v.display)

theorem matches_fieldDocument (f : FieldDefinition) :
    schema.Matches (.named "__Field") (fieldDocument s f) := by
  refine flat.matches_object (o := ⟨"__Field", _, []⟩) rfl ?_
  simp only [List.forall_mem_cons]
  exact ⟨matches_text f.name, .null, Schema.matches_map (matches_inputDocument s) f.arguments,
    matches_typeReference s f.type, .truth rfl, .null, nofun⟩

theorem matches_enumValueDocument (name : String) :
    schema.Matches (.named "__EnumValue") (enumValueDocument name) := by
  refine flat.matches_object (o := ⟨"__EnumValue", _, []⟩) rfl ?_
  simp only [List.forall_mem_cons]
  exact ⟨matches_text name, .null, .truth rfl, .null, nofun⟩

/-- The description of a type matches the type of descriptions. -/
theorem matches_typeDocument (d : TypeDefinition) :
    schema.Matches (.named "__Type") (typeDocument s d) := by
  have hfields (fields : List FieldDefinition) :=
    (Schema.matches_map (matches_fieldDocument s) fields).present
  have hnames (names : List String) :=
    (Schema.matches_map (matches_namedReference s) names).present
  refine matches_type (matches_kind d) (.present (matches_text d.name)) ?_ ?_ ?_ ?_ ?_ .null
  · cases d with
    | object | interface => exact hfields _
    | scalar | union | enum | input => exact .null
  · cases d with
    | object | interface => exact hnames _
    | scalar | union | enum | input => exact .null
  · cases d with
    | interface | union => exact hnames _
    | scalar | object | enum | input => exact .null
  · cases d with
    | enum => exact (Schema.matches_map matches_enumValueDocument _).present
    | scalar | object | interface | union | input => exact .null
  · cases d with
    | input => exact (Schema.matches_map (matches_inputDocument s) _).present
    | scalar | object | interface | union | enum => exact .null

theorem matches_conditionDocument :
    schema.Matches (.named "__InputValue") conditionDocument := by
  refine flat.matches_object (o := ⟨"__InputValue", _, []⟩) rfl ?_
  simp only [List.forall_mem_cons]
  exact ⟨matches_text "if", .null, matches_wrapper (.text rfl)
    (matches_reference (.text rfl) (.present (matches_text "Boolean")) .null), .null, nofun⟩

theorem matches_directiveDocument (name : String) :
    schema.Matches (.named "__Directive") (directiveDocument name) := by
  refine flat.matches_object (o := ⟨"__Directive", _, []⟩) rfl ?_
  simp only [List.forall_mem_cons]
  refine ⟨matches_text name, .null, .list ?_, .list ?_, nofun⟩
  · simp only [List.map_cons, List.map_nil, List.forall_mem_cons]
    exact ⟨.text rfl, .text rfl, .text rfl, nofun⟩
  · exact List.forall_mem_cons.2 ⟨matches_conditionDocument, nofun⟩

/-- The description of a schema matches its type. -/
theorem matches_schemaDocument : schema.Matches (.named "__Schema") (schemaDocument s) := by
  refine flat.matches_object (o := ⟨"__Schema", _, []⟩) rfl ?_
  simp only [List.forall_mem_cons]
  exact ⟨.null, Schema.matches_map (matches_typeDocument s) s.types,
    matches_namedReference s s.queryType, .null, .null,
    Schema.matches_map matches_directiveDocument ["skip", "include"], nofun⟩

end Matching

end Introspection

end MappedQuery
