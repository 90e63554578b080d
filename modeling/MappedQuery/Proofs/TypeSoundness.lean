import MappedQuery.Mapping.Rules
import MappedQuery.Proofs.CheckedQueries
import MappedQuery.Proofs.ShownMembers

/-!
# Responses are typed

Documents that conform to the types of root fields, and mappings that read every field of an
object from its member, answer every checked query without problems: at each position the
document is null, a list, a leaf or an object as the type of the field says, and an object has
the members that the selections on its own type ask for.
-/
namespace MappedQuery

namespace Run

variable {α β : Type}

/-- In every session a run gives a result and leaves the session as it was. -/
def Returns (x : Run α) (a : α) : Prop := ∀ s, x.run.run s = (.ok a, s)

theorem returns_pure (a : α) : (pure a : Run α).Returns a := fun _ => rfl

theorem returns_ofExcept {x : Except Fault α} {a : α} (h : x = .ok a) : (ofExcept x).Returns a := by
  subst h
  exact returns_pure a

theorem Returns.bind {x : Run α} {f : α → Run β} {a : α} {b : β} (hx : x.Returns a)
    (hf : (f a).Returns b) : (x >>= f).Returns b := by
  intro s
  change ((ExceptT.bindCont f (x.run.run s).1).run (x.run.run s).2) = _
  rw [hx s]
  exact hf s

theorem returns_mapM {f : α → Run β} {l : List α} {R : α → β → Prop}
    (h : ∀ a ∈ l, ∃ b, (f a).Returns b ∧ R a b) :
    ∃ bs, (l.mapM f).Returns bs ∧ List.Forall₂ R l bs := by
  induction l with
  | nil => exact ⟨[], returns_pure [], .nil⟩
  | cons a l ih =>
    obtain ⟨b, hb, hab⟩ := h a List.mem_cons_self
    obtain ⟨bs, hbs, hall⟩ := ih fun a ha => h a (List.mem_cons_of_mem _ ha)
    refine ⟨b :: bs, ?_, .cons hab hall⟩
    rw [List.mapM_cons]
    exact hb.bind (hbs.bind (returns_pure _))

end Run

namespace Query

mutual

/-- The selections of a query that apply to the objects of an object type. -/
def selectionsOn (s : Schema) (object : String) : Query → List Select
  | .select name alias? bindings child => [⟨name, alias?, bindings, child⟩]
  | .narrow type child => if s.isSubtype object type then child.selectionsOn s object else []
  | .group queries => allSelectionsOn s object queries
  | .empty | .filter .. | .unique _ | .limit .. | .orderBy .. | .component .. | .introspect _ => []

def allSelectionsOn (s : Schema) (object : String) : List Query → List Select
  | [] => []
  | q :: rest => q.selectionsOn s object ++ allSelectionsOn s object rest

end

/-- The last selection of a key that applies to the objects of an object type. -/
def lastOn? (s : Schema) (object : String) (q : Query) (key : String) : Option Select :=
  lastKeyed? (fun sel => some sel.resultName) key (q.selectionsOn s object)

mutual

/-- A document has the shape that a type and a query below the type say. -/
inductive Typed (s : Schema) : Query → TypeRef → Json → Prop
  | null {q : Query} {inner : TypeRef} : Typed s q (.nullable inner) .null
  | present {q : Query} {inner : TypeRef} {doc : Json} (h : Typed s q inner doc) :
    Typed s q (.nullable inner) doc
  | list {q : Query} {item : TypeRef} {docs : List Json} (h : ∀ doc ∈ docs, Typed s q item doc) :
    Typed s q (.list item) (.array docs)
  | leaf {q : Query} {type : String} {doc : Json} (h : s.leafFits type doc = true) :
    Typed s q (.named type) doc
  /-- An object of an object type that is allowed there has the keys of the selections that apply
  to it and no others. -/
  | object {q : Query} {type object : String} {members : List (String × Json)}
    (hallows : s.Allows type object)
    (hkeys : ∀ key, ((Json.object members).get? key).isSome = (q.lastOn? s object key).isSome)
    (h : ∀ key sel doc, q.lastOn? s object key = some sel →
      (Json.object members).get? key = some doc → MemberTyped s object sel doc) :
    Typed s q (.named type) (.object members)

/-- A document has the type of the field that is selected on an object type. -/
inductive MemberTyped (s : Schema) : String → Select → Json → Prop
  | typename {object : String} {sel : Select} (hname : sel.name = "__typename") :
    MemberTyped s object sel (.string object)
  | field {object : String} {sel : Select} {f : FieldDefinition} {doc : Json}
    (hf : s.field? object sel.name = some f) (h : Typed s sel.child f.type doc) :
    MemberTyped s object sel doc

end

/-- A member has the key of a selection on an object type and the type of its field. -/
def MemberOf (s : Schema) (object : String) (sel : Select) (member : String × Json) : Prop :=
  sel.resultName = member.1 ∧ MemberTyped s object sel member.2

theorem Typed.ofMembers {s : Schema} {q : Query} {type object : String} {ms : Members}
    (hallows : s.Allows type object)
    (h : List.Forall₂ (MemberOf s object) (q.selectionsOn s object) ms) :
    Typed s q (.named type) (Json.ofMembers ms) := by
  have hkeyed := h.imp fun sel member (hmember : MemberOf s object sel member) =>
    (⟨congrArg some hmember.1, hmember.2⟩ :
      some sel.resultName = some member.1 ∧ MemberTyped s object sel member.2)
  have hlast (key : String) : Option.Rel (MemberTyped s object) (q.lastOn? s object key)
      ((Json.ofMembers ms).get? key) := get?_ofMembers_of_forall₂ hkeyed key
  refine .object hallows (fun key => (isSome_eq_of_rel (hlast key)).symm)
    fun key sel doc hsel hdoc => ?_
  have hkey := hlast key
  change (Json.ofMembers ms).get? key = some doc at hdoc
  rw [hsel, hdoc] at hkey
  cases hkey with
  | some htyped => exact htyped

end Query

/-- A registry over documents that holds what the schema says: every field of an object is read
from the member of its name, every root field has a document of its type, and nothing is replaced
or delegated. -/
structure Registry.Documented (r : DocumentRegistry) : Prop where
  fields : ∀ path object name f, r.schema.IsObject object → object ≠ r.schema.queryType →
    r.schema.field? object name = some f →
      r.fieldMapping? path object name = some (.source (.same name))
  roots : ∀ name f, r.schema.field? r.schema.queryType name = some f →
    ∃ json, r.rootData? [] r.schema.queryType name = some json ∧ r.schema.Conforms f.type json
  elaborators : r.elaborators = []
  delegates : ∀ d, .delegate d ∉ r.allFields

theorem Registry.Documented.direct {r : DocumentRegistry} (hr : r.Documented) :
    (Mapping.documents r).Direct where
  elaborator type name := by
    change r.elaborator? type name = none
    rw [Registry.elaborator?, hr.elaborators]
    rfl
  delegate path type name d := Registry.resolve_ne_delegated hr.delegates path type name d

namespace Schema

variable {s : Schema} {type object : String}

/-- Where a type is neither an interface nor a union, it allows its own objects only. -/
theorem Coherent.eq_of_allows (hs : s.Coherent) (h : s.Allows type object)
    (hconcrete : s.isAbstract type = false) : type = object := by
  obtain ⟨u, hu, htest⟩ := hs.acyclic.isSubtype_iff.1 h.isSubtype
  rcases htest with rfl | hmember
  · rcases Relation.ReflTransGen.cases_tail hu with heq | ⟨b, -, hb⟩
    · exact heq
    · obtain ⟨d, hd⟩ := hs.interface b u hb
      rw [isAbstract, hd] at hconcrete
      cases hconcrete
  · cases hfind : s.find? type with
    | none =>
      rw [unionMembers, hfind] at hmember
      cases hmember
    | some d =>
      rw [isAbstract, hfind] at hconcrete
      rw [unionMembers, hfind] at hmember
      cases d with
      | union => cases hconcrete
      | _ => cases hmember

theorem Coherent.isLeaf_of_allows (hs : s.Coherent) (h : s.Allows type object) :
    s.isLeaf type = false := by
  cases hfind : s.find? type with
  | none => rw [isLeaf, hfind]; rfl
  | some d =>
    cases d with
    | scalar | enum =>
      obtain rfl := hs.eq_of_allows h (by rw [isAbstract, hfind]; rfl)
      obtain ⟨o, ho⟩ := h.isObject
      rw [hfind] at ho
      cases ho
    | _ => rw [isLeaf, hfind]; rfl

/-- An object has the fields of every type that allows it, with the same types. -/
theorem Coherent.field?_of_allows (hs : s.Coherent) (h : s.Allows type object) {name : String}
    {f : FieldDefinition} (hf : s.field? type name = some f) :
    ∃ g, s.field? object name = some g ∧ g.type = f.type := by
  obtain ⟨u, hu, hown⟩ := reaches_of_field? hf
  obtain ⟨v, hv, htest⟩ := hs.acyclic.isSubtype_iff.1 h.isSubtype
  rcases htest with rfl | hmember
  · exact hs.inherited object u name f h.isObject (hs.acyclic.isSubtype_of_reaches (hv.trans hu))
      hown
  · -- a union has no fields
    cases hfind : s.find? type with
    | none =>
      rw [unionMembers, hfind] at hmember
      cases hmember
    | some d =>
      cases d with
      | union unionName members =>
        have hself : u = type := by
          rcases Relation.ReflTransGen.cases_head hu with rfl | ⟨i, hi, -⟩
          · rfl
          · rw [Implements, interfaces, hfind] at hi
            cases hi
        rw [hself, ownField?, hfind] at hown
        cases hown
      | _ =>
        rw [unionMembers, hfind] at hmember
        cases hmember

end Schema

namespace Cursor

section Documents

variable {c : Cursor} {r : DocumentRegistry} {json : Json}

theorem schema_document (hfocus : c.focus = .document r json) : c.schema = r.schema := by
  rw [schema, hfocus]

theorem present?_document (hfocus : c.focus = .document r json) {inner : TypeRef}
    (htype : c.type = .nullable inner) :
    c.present? = .ok (if json.isNull then none else some { c with type := inner }) := by
  rw [present?, htype, hfocus]
  dsimp only
  split
  · rfl
  · rfl

theorem elements_document {elements : List Json} (hfocus : c.focus = .document r (.array elements))
    {item : TypeRef} (htype : c.type = .list item) :
    c.elements = elements.map fun e => { c with type := item, focus := .document r e } := by
  rw [Cursor.elements, htype, hfocus]
  rfl

theorem leaf_document (hfocus : c.focus = .document r json) {type : String}
    (htype : c.type = .named type) (hfits : r.schema.leafFits type json = true) :
    c.isLeaf = true ∧ c.leaf = .ok (typedLeaf r.schema type (.ofJson json)) := by
  have hleaf : c.isLeaf = true := by
    rw [isLeaf, htype, schema_document hfocus]
    exact Schema.isLeaf_of_leafFits hfits
  refine ⟨hleaf, ?_⟩
  rw [leaf, if_pos hleaf, hfocus, schema_document hfocus, htype]
  rfl

/-- A field that is read from the member of its name is that member, with its declared type. -/
theorem field_same (hfocus : c.focus = .document r json) {object name : String}
    (hconcrete : c.concreteType = .ok object)
    (hmapped : r.fieldMapping? c.path object name = some (.source (.same name)))
    {f : FieldDefinition} (hf : r.schema.field? object name = some f) :
    (Mapping.documents r).resolve c.path object name = .source ∧
      c.field name =
        .ok ⟨c.path ++ [name], f.type, .document r ((json.get? name).getD .null)⟩ := by
  constructor
  · change r.resolve c.path object name = .source
    rw [Registry.resolve, hmapped]
  · have hsource : r.sourceField? c.path object name = some (.same name) := by
      rw [Registry.sourceField?, hmapped]
      rfl
    have hfield : c.fieldType object name = .ok f.type := by
      rw [fieldType, schema_document hfocus, hf]
    have hfound : c.sourceField r name = .ok (object, .same name) := by
      rw [sourceField, hconcrete]
      simp [hsource, bind, Except.bind, pure, Except.pure, SourceField.hidden, MemberField.same]
    obtain ⟨path, declared, focus⟩ := c
    obtain rfl : focus = .document r json := hfocus
    exact bind_eq_ok.2 ⟨_, hfound, bind_eq_ok.2 ⟨_, hfield, rfl⟩⟩

end Documents

/-- A position that holds an object of an object type, seen as a type. -/
structure IsOn (c : Cursor) (r : DocumentRegistry) (type object : String) (json : Json) :
    Prop where
  focus : c.focus = .document r json
  declared : c.type = .named type
  allows : r.schema.Allows type object
  named : json.get? typenameKey = some (.string object)
  fields : ∀ name f, r.schema.field? object name = some f →
    r.schema.Conforms f.type ((json.get? name).getD .null)
  notQuery : object ≠ r.schema.queryType

namespace IsOn

variable {c : Cursor} {r : DocumentRegistry} {type object : String} {json : Json}

theorem schema_eq (h : c.IsOn r type object json) : c.schema = r.schema :=
  schema_document h.focus

/-- The object is of the type that its document names. -/
theorem concreteType (h : c.IsOn r type object json) (hs : r.schema.Coherent) :
    c.concreteType = .ok object := by
  unfold Cursor.concreteType
  rw [h.declared, h.schema_eq, h.focus]
  dsimp only [TypeRef.underlying]
  split
  · rw [documentType, h.named]
    rfl
  · rename_i hconcrete
    rw [hs.eq_of_allows h.allows (Bool.eq_false_iff.2 hconcrete)]

theorem isLeaf (h : c.IsOn r type object json) (hs : r.schema.Coherent) : c.isLeaf = false := by
  rw [Cursor.isLeaf, h.declared, h.schema_eq]
  exact hs.isLeaf_of_allows h.allows

theorem narrowsTo (h : c.IsOn r type object json) (hs : r.schema.Coherent) (t : String) :
    c.narrowsTo t = r.schema.isSubtype object t := by
  rw [Cursor.narrowsTo, h.concreteType hs, h.schema_eq]

theorem narrow (h : c.IsOn r type object json) {t : String}
    (ht : r.schema.isSubtype object t = true) :
    ({ c with type := .named t } : Cursor).IsOn r t object json :=
  ⟨h.focus, rfl, ⟨h.allows.isObject, ht⟩, h.named, h.fields, h.notQuery⟩

/-- A field of the type that the object is seen as is there, with that type, and its document
conforms to it. -/
theorem field (h : c.IsOn r type object json) (hs : r.schema.Coherent) (hr : r.Documented)
    {name : String} {f : FieldDefinition} (hf : r.schema.field? type name = some f) :
    ∃ g doc, r.schema.field? object name = some g ∧ g.type = f.type ∧
      (Mapping.documents r).resolve c.path object name = .source ∧
      c.field name = .ok ⟨c.path ++ [name], g.type, .document r doc⟩ ∧
      r.schema.Conforms g.type doc := by
  obtain ⟨g, hg, hsame⟩ := hs.field?_of_allows h.allows hf
  obtain ⟨hresolve, hfield⟩ := field_same h.focus (h.concreteType hs)
    (hr.fields c.path object name g h.allows.isObject h.notQuery hg) hg
  exact ⟨g, _, hg, hsame, hresolve, hfield, h.fields name g hg⟩

end IsOn

end Cursor

/-- A root field of the query type is opened at its document, and the whole query is left. -/
theorem Mapping.returns_openRoot {r : DocumentRegistry} (sel : Select) {json : Json}
    (hdata : r.rootData? [] r.schema.queryType sel.name = some json) {f : FieldDefinition}
    (hf : r.schema.field? r.schema.queryType sel.name = some f) :
    ((Mapping.documents r).openRoot r.schema.queryType sel).Returns
      (sel.child, ⟨[sel.name], f.type, .document r json⟩) := by
  have htype : (Mapping.documents r).openType r.schema.queryType sel.name = .ok f.type := by
    have hroot : (Mapping.documents r).rootFieldType? r.schema.queryType sel.name =
        some f.type := by
      change ((r.schema.field? r.schema.queryType sel.name).or _).map (·.type) = _
      rw [hf]
      rfl
    rw [openType, hroot]
  rw [openRoot, Registry.openData?, hdata]
  exact (Run.returns_ofExcept htype).bind (Run.returns_pure _)

namespace Query

section Reading

variable {r : DocumentRegistry}

/-- A query reads the members of an object as its selections on the object's type say. -/
def ReadsObjects (r : DocumentRegistry) (q : Query) (read : Cursor → Run Members) : Prop :=
  ∀ c type object json, c.IsOn r type object json → q.ChecksOn r.schema type →
    ∃ ms, (read c).Returns ms ∧
      List.Forall₂ (MemberOf r.schema object) (q.selectionsOn r.schema object) ms

/-- A position of a conforming document is read as its type says. -/
theorem readAs_typed (hs : r.schema.Coherent) (hencoders : r.EncodersFit) {q : Query}
    {read : Cursor → Run Members} (hread : ReadsObjects r q read) :
    ∀ {type : TypeRef} {c : Cursor} {json : Json}, c.focus = .document r json → c.type = type →
      r.schema.Conforms type json → type.underlying ≠ r.schema.queryType →
        q.ChecksOn r.schema type.underlying →
          ∃ doc, (readAs (.documents r) read type c).Returns doc ∧ Typed r.schema q type doc
  | .nullable inner, c, json, hfocus, htype, hjson, hquery, hq => by
    rw [readAs]
    have hpresent := Run.returns_ofExcept (Cursor.present?_document hfocus htype)
    cases hjson with
    | null => exact ⟨.null, hpresent.bind (Run.returns_pure _), .null⟩
    | present hinner =>
      by_cases hnull : json.isNull = true
      · rw [if_pos hnull] at hpresent
        exact ⟨.null, hpresent.bind (Run.returns_pure _), .null⟩
      · rw [if_neg hnull] at hpresent
        obtain ⟨doc, hdoc, htyped⟩ := readAs_typed hs hencoders hread
          (c := { c with type := inner }) hfocus rfl hinner hquery hq
        exact ⟨doc, hpresent.bind hdoc, .present htyped⟩
  | .list item, c, json, hfocus, htype, hjson, hquery, hq => by
    rw [readAs]
    cases hjson with
    | @list _ elements hall =>
      have helements (element : Cursor) (helement : element ∈ c.elements) :
          ∃ doc, (readAs (.documents r) read item element).Returns doc ∧
            Typed r.schema q item doc := by
        rw [Cursor.elements_document hfocus htype] at helement
        obtain ⟨e, he, rfl⟩ := List.mem_map.1 helement
        exact readAs_typed hs hencoders hread rfl rfl (hall e he) hquery hq
      obtain ⟨docs, hdocs, htyped⟩ := Run.returns_mapM helements
      refine ⟨.array docs, hdocs.bind (Run.returns_pure _), .list fun doc hdoc => ?_⟩
      obtain ⟨i, hi, rfl⟩ := List.getElem_of_mem hdoc
      exact (List.forall₂_iff_get.1 htyped).2 i (htyped.length_eq ▸ hi) hi
  | .named type, c, json, hfocus, htype, hjson, hquery, hq => by
    rw [readAs]
    cases hjson with
    | leaf hfits =>
      obtain ⟨hleaf, hvalue⟩ := Cursor.leaf_document hfocus htype hfits
      obtain ⟨doc, hdoc, hfit⟩ := hencoders.encode hfits
      rw [if_pos hleaf]
      exact ⟨doc, Run.returns_ofExcept (bind_eq_ok.2 ⟨_, hvalue, hdoc⟩), .leaf hfit⟩
    | @object _ object members hallows hname hfields =>
      have hon : c.IsOn r type object (.object members) := by
        refine ⟨hfocus, htype, hallows, hname, hfields, fun hobject => hquery ?_⟩
        exact hs.eq_of_queryType_isSubtype (hobject ▸ hallows.isSubtype)
      obtain ⟨ms, hms, hall⟩ := hread c type object _ hon hq
      rw [if_neg (by rw [hon.isLeaf hs]; exact Bool.false_ne_true)]
      exact ⟨_, hms.bind (Run.returns_pure _), .ofMembers hallows hall⟩

/-- A checked query is read at a position of a conforming document as the type says. -/
theorem readAt_typed (hs : r.schema.Coherent) (hencoders : r.EncodersFit) {q : Query}
    {read : Cursor → Run Members} (hread : ReadsObjects r q read) {c : Cursor} {json : Json}
    (hfocus : c.focus = .document r json) (hjson : r.schema.Conforms c.type json)
    (hquery : c.type.underlying ≠ r.schema.queryType)
    (hq : q.ChecksOn r.schema c.type.underlying) :
    ∃ doc, (readAt (.documents r) read q c).Returns doc ∧ Typed r.schema q c.type doc := by
  rw [readAt, if_neg (by rw [hq.not_isListOperation]; exact Bool.false_ne_true)]
  exact readAs_typed hs hencoders hread hfocus rfl hjson hquery hq

/-- No field leads to the query type. -/
theorem field?_ne_queryType (hs : r.schema.Coherent) {type name : String} {f : FieldDefinition}
    (hf : r.schema.field? type name = some f) : f.type.underlying ≠ r.schema.queryType := by
  obtain ⟨u, -, hown⟩ := Schema.reaches_of_field? hf
  exact hs.queryFields u name f hown

section Fields

variable {answers : Answers (.documents r)}

theorem returns_atObject {q : Query} {type : String} (hq : q.ChecksOn r.schema type)
    {read : Cursor → Run Members} {c : Cursor} {ms : Members} (h : (read c).Returns ms) :
    (atObject q read c).Returns ms := by
  rw [atObject, if_neg (by rw [hq.not_isListOperation]; exact Bool.false_ne_true)]
  exact h

mutual

/-- A checked query reads the members of objects. -/
theorem readsObjects_fields (hs : r.schema.Coherent) (hr : r.Documented)
    (hencoders : r.EncodersFit) :
    ∀ q : Query, ReadsObjects r q (fields (.documents r) answers q)
  | .group queries => by
    intro c type object json hc hq
    rw [ChecksOn] at hq
    rw [fields, selectionsOn]
    exact readsObjects_fieldsAll hs hr hencoders queries c type object json hc hq
  | .select name alias? bindings child => by
    intro c type object json hc hq
    rw [ChecksOn] at hq
    rw [fields, selectionsOn]
    have hconcrete := Run.returns_ofExcept (hc.concreteType hs)
    by_cases hname : name = "__typename"
    · refine ⟨[(alias?.getD name, .string object)], hconcrete.bind ?_, .cons ?_ .nil⟩
      · rw [if_pos hname]
        exact Run.returns_pure _
      · exact ⟨rfl, .typename hname⟩
    · obtain ⟨f, hf, hchild⟩ := hq.resolve_left hname
      obtain ⟨g, doc, hg, hsame, hresolve, hnext, hconforms⟩ := hc.field hs hr hf
      obtain ⟨read, hread, htyped⟩ := readAt_typed hs hencoders
        (readsObjects_fields hs hr hencoders child)
        (c := ⟨c.path ++ [name], g.type, .document r doc⟩) rfl hconforms
        (field?_ne_queryType hs hg) (hsame ▸ hchild)
      refine ⟨[(alias?.getD name, read)], hconcrete.bind ?_, .cons ⟨rfl, .field hg htyped⟩ .nil⟩
      rw [if_neg hname]
      split
      · exact (Run.returns_ofExcept hnext).bind (hread.bind (Run.returns_pure _))
      · rename_i hcomputed
        cases hresolve.symm.trans hcomputed
      · rename_i hdelegated
        cases hresolve.symm.trans hdelegated
  | .narrow condition child => by
    intro c type object json hc hq
    rw [ChecksOn] at hq
    rw [fields, selectionsOn, hc.narrowsTo hs]
    by_cases happlies : r.schema.isSubtype object condition = true
    · obtain ⟨ms, hms, hall⟩ := readsObjects_fields hs hr hencoders child _ condition object json
        (hc.narrow happlies) hq
      have hnarrow : c.narrow condition = .ok { c with type := .named condition } := by
        rw [Cursor.narrow, hc.narrowsTo hs, if_pos happlies]
      rw [if_pos happlies, if_pos happlies]
      exact ⟨ms, (Run.returns_ofExcept hnarrow).bind (returns_atObject hq hms), hall⟩
    · rw [if_neg happlies, if_neg happlies]
      exact ⟨[], Run.returns_pure _, .nil⟩
  | .empty => by
    intro c type object json hc hq
    rw [fields, selectionsOn]
    exact ⟨[], Run.returns_pure _, .nil⟩
  | .filter .. | .unique _ | .limit .. | .orderBy .. | .component .. | .introspect _ => by
    intro c type object json hc hq
    rw [ChecksOn] at hq
    exact absurd hq id

theorem readsObjects_fieldsAll (hs : r.schema.Coherent) (hr : r.Documented)
    (hencoders : r.EncodersFit) : ∀ (qs : List Query) (c : Cursor) (type object : String)
      (json : Json), c.IsOn r type object json → AllCheckOn r.schema type qs →
        ∃ ms, (fieldsAll (.documents r) answers qs c).Returns ms ∧
          List.Forall₂ (MemberOf r.schema object) (allSelectionsOn r.schema object qs) ms
  | [], c, type, object, json, hc, hqs => by
    rw [fieldsAll, allSelectionsOn]
    exact ⟨[], Run.returns_pure _, .nil⟩
  | q :: rest, c, type, object, json, hc, hqs => by
    rw [AllCheckOn] at hqs
    obtain ⟨ms, hms, hall⟩ := readsObjects_fields hs hr hencoders q c type object json hc hqs.1
    obtain ⟨others, hothers, hrest⟩ :=
      readsObjects_fieldsAll hs hr hencoders rest c type object json hc hqs.2
    rw [fieldsAll, allSelectionsOn]
    exact ⟨ms ++ others,
      (returns_atObject hqs.1 hms).bind (hothers.bind (Run.returns_pure _)),
      List.rel_append hall hrest⟩

end

end Fields

mutual

/-- The selections of a query are those of its members. -/
theorem selectionsOn_eq_flatMap (s : Schema) (object : String) :
    ∀ q : Query, q.selectionsOn s object = q.members.flatMap (·.selectionsOn s object)
  | .group queries => by
    rw [selectionsOn, members]
    exact allSelectionsOn_eq_flatMap s object queries
  | .empty => rfl
  | .select .. | .narrow .. | .filter .. | .unique _ | .limit .. | .orderBy .. | .component ..
  | .introspect _ => by
    rw [members, List.flatMap_singleton] <;> simp

theorem allSelectionsOn_eq_flatMap (s : Schema) (object : String) :
    ∀ qs : List Query, allSelectionsOn s object qs =
      (membersAll qs).flatMap (·.selectionsOn s object)
  | [] => rfl
  | q :: rest => by
    rw [allSelectionsOn, membersAll, List.flatMap_append, selectionsOn_eq_flatMap s object q,
      allSelectionsOn_eq_flatMap s object rest]

end

/-- A root field is read from its document. -/
theorem readRoot_typed (hs : r.schema.Coherent) (hr : r.Documented) (hencoders : r.EncodersFit)
    (sel : Select) {f : FieldDefinition}
    (hf : r.schema.field? r.schema.queryType sel.name = some f)
    (hchild : sel.child.ChecksOn r.schema f.type.underlying) :
    ∃ doc, ((Mapping.documents r).readRoot r.schema.queryType sel).Returns doc ∧
      Typed r.schema sel.child f.type doc := by
  obtain ⟨json, hdata, hjson⟩ := hr.roots sel.name f hf
  have hread : ReadsObjects r sel.child
      (fields (.documents r) (fun d _ type s => d.target.readRoot type s) sel.child) :=
    readsObjects_fields hs hr hencoders sel.child
  obtain ⟨doc, hdoc, htyped⟩ := readAt_typed hs hencoders hread
    (c := ⟨[sel.name], f.type, .document r json⟩) rfl hjson (field?_ne_queryType hs hf) hchild
  have hopen := Mapping.returns_openRoot sel hdata hf
  refine ⟨doc, ?_, htyped⟩
  rw [Mapping.readRoot]
  exact hopen.bind hdoc

/-- A checked root is answered, with its type and without problems. -/
theorem answerRoot_typed (hs : r.schema.Coherent) (hr : r.Documented) (hencoders : r.EncodersFit)
    (sel : Select) (hsel : sel.toQuery.ChecksOn r.schema r.schema.queryType) :
    ∃ doc, MemberTyped r.schema r.schema.queryType sel doc ∧ ∀ s,
      ((Mapping.documents r).answerRoot sel.toQuery).run s =
        (.ofMember sel.resultName doc, s) := by
  rw [Select.toQuery, ChecksOn] at hsel
  by_cases hname : sel.name = "__typename"
  · refine ⟨.string r.schema.queryType, .typename hname, fun s => ?_⟩
    rw [Select.toQuery, Mapping.answerRoot]
    rw [if_pos hname]
    rfl
  · obtain ⟨f, hf, hchild⟩ := hsel.resolve_left hname
    obtain ⟨doc, hdoc, htyped⟩ := readRoot_typed hs hr hencoders sel hf hchild
    refine ⟨doc, .field hf htyped, fun s => ?_⟩
    rw [Select.toQuery, Mapping.answerRoot]
    rw [if_neg hname]
    change (RootResult.ofRoot sel.resultName
      (((Mapping.documents r).readRoot r.schema.queryType sel).run.run s).1,
        (((Mapping.documents r).readRoot r.schema.queryType sel).run.run s).2) = _
    rw [hdoc s]
    rfl

/-- Checked roots are answered one after the other. -/
theorem answerBranches_typed (hs : r.schema.Coherent) (hr : r.Documented)
    (hencoders : r.EncodersFit) (introspection : Mapping) (qs : List Query)
    (hqs : ∀ q ∈ qs, (∃ sel : Select, q = sel.toQuery) ∧ q.ChecksOn r.schema r.schema.queryType) :
    ∃ ms, List.Forall₂ (MemberOf r.schema r.schema.queryType)
        (qs.flatMap (·.selectionsOn r.schema r.schema.queryType)) ms ∧
      ∀ s, (answerBranches (.documents r) introspection qs).run s = (⟨ms, []⟩, s) := by
  induction qs with
  | nil => exact ⟨[], .nil, fun s => rfl⟩
  | cons q rest ih =>
    obtain ⟨ms, hms, hrest⟩ := ih fun b hb => hqs b (List.mem_cons_of_mem _ hb)
    obtain ⟨⟨sel, rfl⟩, hsel⟩ := hqs q List.mem_cons_self
    obtain ⟨doc, hdoc, hroot⟩ := answerRoot_typed hs hr hencoders sel hsel
    refine ⟨(sel.resultName, doc) :: ms, ?_, fun s => ?_⟩
    · rw [List.flatMap_cons]
      exact .cons ⟨rfl, hdoc⟩ hms
    · have hbranch : (sel.toQuery.answerBranch (.documents r) introspection).run s =
          (.ofMember sel.resultName doc, s) := by
        change ((((Mapping.documents r).answerRoot sel.toQuery).run s).1.append .empty,
          (((Mapping.documents r).answerRoot sel.toQuery).run s).2) = _
        rw [hroot s]
        rfl
      have hstep : (answerBranches (.documents r) introspection (sel.toQuery :: rest)).run s =
          (((sel.toQuery.answerBranch (.documents r) introspection).run s).1.append
            ((answerBranches (.documents r) introspection rest).run
              ((sel.toQuery.answerBranch (.documents r) introspection).run s).2).1,
            ((answerBranches (.documents r) introspection rest).run
              ((sel.toQuery.answerBranch (.documents r) introspection).run s).2).2) := rfl
      rw [hstep, hbranch, hrest]
      rfl

end Reading

end Query

/-- Whether a request asks for no root field of introspection. -/
def EngineRequest.avoidsIntrospection (r : EngineRequest) : Bool :=
  match Engine.read r with
  | .ok q => q.members.all fun root => !root.isIntrospectionRoot
  | .error _ => true

/-- A request that compiles without problems over documents that conform to the types of root
fields is answered without problems, and the data have the types that the fields of the schema
say. -/
theorem Engine.responses_are_typed {e : Engine} {r : DocumentRegistry}
    (he : e.mapping = .documents r) (hs : r.schema.Coherent) (hr : r.Documented)
    (hencoders : r.EncodersFit) {request : EngineRequest}
    (hfields : request.avoidsIntrospection = true) (h : (e.compile request).problems = []) :
    ∃ q, e.compile request = .success q ∧ ∀ s, ∃ data,
      ((e.run q).run s).1 = .success data ∧
        Query.Typed r.schema q (.named r.schema.queryType) data := by
  obtain ⟨introspection, rfl⟩ : ∃ introspection, e = ⟨.documents r, introspection⟩ :=
    ⟨e.introspection, by rw [← he]⟩
  rw [EngineRequest.avoidsIntrospection] at hfields
  cases hread : Engine.read request with
  | error f =>
    rw [Engine.compile, hread] at h
    cases h
  | ok q₀ =>
    rw [hread] at hfields
    have hroots : ∀ root ∈ q₀.members, root.isIntrospectionRoot = false := by
      intro root hroot
      simpa using List.all_eq_true.1 hfields root hroot
    obtain ⟨q, hcompile, hq⟩ := Engine.compile_checked (e := ⟨.documents r, introspection⟩) hs
      hr.direct hread hroots h
    refine ⟨q, hcompile, fun s => ?_⟩
    obtain ⟨ms, hms, hrun⟩ :=
      Query.answerBranches_typed hs hr hencoders introspection q.members hq
    refine ⟨Json.ofMembers ms, ?_, ?_⟩
    · change Outcome.attach (Json.ofMembers
        ((Query.answerBranches (.documents r) introspection q.members).run s).1.members)
          ((Query.answerBranches (.documents r) introspection q.members).run s).1.problems = _
      rw [hrun s]
      rfl
    · refine .ofMembers ⟨hs.queryObject, hs.acyclic.isSubtype_of_reaches .refl⟩ ?_
      rw [Query.selectionsOn_eq_flatMap]
      exact hms

namespace Cast

def nameField : FieldDefinition := ⟨"name", [], .nullable (.named "String")⟩

def friendsField : FieldDefinition := ⟨"friends", [], .nullable (.list (.named "Character"))⟩

def heroesField : FieldDefinition := ⟨"heroes", [], .list (.named "Character")⟩

/-- Characters of two types, some of whom have friends among all of them. -/
def schema : Schema := .ofTypes [
  .object ⟨"Query", [heroesField], []⟩,
  .interface ⟨"Character", [nameField], []⟩,
  .object ⟨"Human", [nameField, friendsField], ["Character"]⟩,
  .object ⟨"Droid", [nameField], ["Character"]⟩] "Query"

def droid : Json := .object [("__typename", .string "Droid"), ("name", .string "R2-D2")]

def human : Json := .object [("__typename", .string "Human"), ("friends", .array [droid])]

/-- A human without a name and a droid in a document, with an encoder of texts. -/
def registry (encode : Encoder) : DocumentRegistry where
  schema := schema
  types := [
    .object ⟨"Query", [.root "heroes" (.array [human, droid])]⟩,
    .object ⟨"Human", [.source (.same "name"), .source (.same "friends")]⟩,
    .object ⟨"Droid", [.source (.same "name")]⟩,
    .leaf "String" encode]
  elaborators := []

/-- The types of the schema; the built-in scalars have neither fields nor interfaces. -/
theorem find?_cases {t : String} {d : TypeDefinition} (h : schema.find? t = some d) :
    (∃ name, d = .scalar name) ∨
      (t = "Query" ∧ d = .object ⟨"Query", [heroesField], []⟩) ∨
        (t = "Character" ∧ d = .interface ⟨"Character", [nameField], []⟩) ∨
          (t = "Human" ∧ d = .object ⟨"Human", [nameField, friendsField], ["Character"]⟩) ∨
            t = "Droid" ∧ d = .object ⟨"Droid", [nameField], ["Character"]⟩ := by
  have hname := Schema.name_of_find? h
  have hmem := List.mem_of_find?_eq_some h
  simp only [schema, Schema.ofTypes, List.mem_append, List.mem_map, List.mem_cons,
    List.not_mem_nil, or_false] at hmem
  rcases hmem with ⟨name, -, rfl⟩ | rfl | rfl | rfl | rfl
  · exact .inl ⟨name, rfl⟩
  · exact .inr (.inl ⟨hname.symm, rfl⟩)
  · exact .inr (.inr (.inl ⟨hname.symm, rfl⟩))
  · exact .inr (.inr (.inr (.inl ⟨hname.symm, rfl⟩)))
  · exact .inr (.inr (.inr (.inr ⟨hname.symm, rfl⟩)))

theorem implements_cases {a b : String} (h : schema.Implements a b) :
    (a = "Human" ∨ a = "Droid") ∧ b = "Character" := by
  unfold Schema.Implements Schema.interfaces at h
  cases hfind : schema.find? a with
  | none =>
    rw [hfind] at h
    cases h
  | some d =>
    rw [hfind] at h
    rcases find?_cases hfind with ⟨name, rfl⟩ | ⟨rfl, rfl⟩ | ⟨rfl, rfl⟩ | ⟨rfl, rfl⟩ | ⟨rfl, rfl⟩
    · cases h
    · cases h
    · cases h
    · exact ⟨.inl rfl, List.mem_singleton.1 h⟩
    · exact ⟨.inr rfl, List.mem_singleton.1 h⟩

theorem reaches_cases {a b : String} (h : schema.Reaches a b) :
    a = b ∨ (a = "Human" ∨ a = "Droid") ∧ b = "Character" := by
  rcases Relation.ReflTransGen.cases_head h with rfl | ⟨i, hi, hrest⟩
  · exact .inl rfl
  · obtain ⟨ha, rfl⟩ := implements_cases hi
    rcases Relation.ReflTransGen.cases_head hrest with rfl | ⟨j, hj, -⟩
    · exact .inr ⟨ha, rfl⟩
    · exact absurd (implements_cases hj).1 (by decide)

theorem isObject_cases {o : String} (h : schema.IsObject o) :
    o = "Query" ∨ o = "Human" ∨ o = "Droid" := by
  obtain ⟨d, hd⟩ := h
  rcases find?_cases hd with ⟨name, heq⟩ | ⟨rfl, -⟩ | ⟨-, heq⟩ | ⟨rfl, -⟩ | ⟨rfl, -⟩
  · cases heq
  · exact .inl rfl
  · cases heq
  · exact .inr (.inl rfl)
  · exact .inr (.inr rfl)

theorem ownField?_cases {t name : String} {f : FieldDefinition}
    (h : schema.ownField? name t = some f) : name = f.name ∧
      ((t = "Query" ∧ f = heroesField) ∨ (t = "Human" ∧ f = friendsField) ∨
        (t = "Character" ∨ t = "Human" ∨ t = "Droid") ∧ f = nameField) := by
  obtain ⟨d, hd, hfield⟩ := Option.bind_eq_some_iff.1 h
  have hname := List.find?_some hfield
  have hmem := List.mem_of_find?_eq_some hfield
  refine ⟨(of_decide_eq_true hname).symm, ?_⟩
  rcases find?_cases hd with ⟨_, rfl⟩ | ⟨rfl, rfl⟩ | ⟨rfl, rfl⟩ | ⟨rfl, rfl⟩ | ⟨rfl, rfl⟩
  · cases hmem
  · exact .inl ⟨rfl, List.mem_singleton.1 hmem⟩
  · exact .inr (.inr ⟨.inl rfl, List.mem_singleton.1 hmem⟩)
  · rcases List.mem_cons.1 hmem with rfl | hmem
    · exact .inr (.inr ⟨.inr (.inl rfl), rfl⟩)
    · exact .inr (.inl ⟨rfl, List.mem_singleton.1 hmem⟩)
  · exact .inr (.inr ⟨.inr (.inr rfl), List.mem_singleton.1 hmem⟩)

theorem unionMembers_eq_nil (u : String) : schema.unionMembers u = [] := by
  rw [Schema.unionMembers]
  cases hfind : schema.find? u with
  | none => rfl
  | some d =>
    rcases find?_cases hfind with ⟨_, rfl⟩ | ⟨-, rfl⟩ | ⟨-, rfl⟩ | ⟨-, rfl⟩ | ⟨-, rfl⟩ <;> rfl

theorem acyclic : schema.Acyclic := by
  intro t h
  obtain ⟨b, hb, hrest⟩ := Relation.TransGen.head'_iff.1 h
  obtain ⟨ht, rfl⟩ := implements_cases hb
  rcases reaches_cases hrest with rfl | ⟨hcharacter, -⟩
  · exact absurd ht (by decide)
  · exact absurd hcharacter (by decide)

theorem coherent : schema.Coherent where
  acyclic := acyclic
  interface a b h := by
    obtain ⟨-, rfl⟩ := implements_cases h
    exact ⟨_, rfl⟩
  inherited o i name f ho hsub hf := by
    obtain ⟨u, hu, htest⟩ := acyclic.isSubtype_iff.1 hsub
    rw [unionMembers_eq_nil] at htest
    obtain rfl := htest.resolve_right List.not_mem_nil
    rcases reaches_cases hu with rfl | ⟨ho, rfl⟩
    · exact ⟨f, Schema.search_self hf, rfl⟩
    · obtain ⟨rfl, ⟨heq, -⟩ | ⟨heq, -⟩ | ⟨-, rfl⟩⟩ := ownField?_cases hf
      · exact absurd heq (by decide)
      · exact absurd heq (by decide)
      · rcases ho with rfl | rfl
        · exact ⟨nameField, rfl, rfl⟩
        · exact ⟨nameField, rfl, rfl⟩
  queryObject := ⟨_, rfl⟩
  queryInterfaces := rfl
  queryUnions u := by
    rw [unionMembers_eq_nil]
    exact List.not_mem_nil
  queryFields type name f hf := by
    obtain ⟨-, ⟨-, rfl⟩ | ⟨-, rfl⟩ | ⟨-, rfl⟩⟩ := ownField?_cases hf <;> decide

theorem field?_cases {t name : String} {f : FieldDefinition} (h : schema.field? t name = some f) :
    name = f.name ∧ ((t = "Query" ∧ f = heroesField) ∨ (t = "Human" ∧ f = friendsField) ∨
      (t = "Character" ∨ t = "Human" ∨ t = "Droid") ∧ f = nameField) := by
  obtain ⟨u, hu, hown⟩ := Schema.reaches_of_field? h
  obtain ⟨hname, hf⟩ := ownField?_cases hown
  refine ⟨hname, ?_⟩
  rcases reaches_cases hu with rfl | ⟨ht, rfl⟩
  · exact hf
  · rcases hf with ⟨heq, -⟩ | ⟨heq, -⟩ | ⟨-, rfl⟩
    · exact absurd heq (by decide)
    · exact absurd heq (by decide)
    · exact .inr (.inr ⟨.inr ht, rfl⟩)

theorem allows {object : String} (h : object = "Human" ∨ object = "Droid") :
    schema.Allows "Character" object := by
  rcases h with rfl | rfl
  · exact ⟨⟨_, rfl⟩, rfl⟩
  · exact ⟨⟨_, rfl⟩, rfl⟩

theorem conforms_droid : schema.Conforms (.named "Character") droid := by
  refine .object (allows (.inr rfl)) rfl fun name f hf => ?_
  obtain ⟨rfl, ⟨heq, -⟩ | ⟨heq, -⟩ | ⟨-, rfl⟩⟩ := field?_cases hf
  · exact absurd heq (by decide)
  · exact absurd heq (by decide)
  · exact .present (.leaf rfl)

theorem conforms_human : schema.Conforms (.named "Character") human := by
  refine .object (allows (.inl rfl)) rfl fun name f hf => ?_
  obtain ⟨rfl, ⟨heq, -⟩ | ⟨-, rfl⟩ | ⟨-, rfl⟩⟩ := field?_cases hf
  · exact absurd heq (by decide)
  · exact .present (.list fun e he => List.mem_singleton.1 he ▸ conforms_droid)
  · exact .null

variable (encode : Encoder)

theorem documented : (registry encode).Documented where
  fields path object name f ho hquery hf := by
    obtain ⟨rfl, ⟨rfl, -⟩ | ⟨rfl, rfl⟩ | ⟨-, rfl⟩⟩ := field?_cases hf
    · exact absurd rfl hquery
    · rfl
    · rcases isObject_cases ho with rfl | rfl | rfl
      · exact absurd rfl hquery
      · rfl
      · rfl
  roots name f hf := by
    change schema.field? "Query" name = some f at hf
    obtain ⟨rfl, ⟨-, rfl⟩ | ⟨heq, -⟩ | ⟨heq, -⟩⟩ := field?_cases hf
    · refine ⟨.array [human, droid], rfl, .list fun e he => ?_⟩
      rcases List.mem_cons.1 he with rfl | he
      · exact conforms_human
      · exact List.mem_singleton.1 he ▸ conforms_droid
    · exact absurd heq (by decide)
    · exact absurd heq (by decide)
  elaborators := rfl
  delegates d hd := by simp [registry, Registry.allFields] at hd

/-- Texts with an ending are texts. -/
theorem encodersFit (text : String) : (registry (.suffix text)).EncodersFit := by
  intro type encode hencoder json hjson
  by_cases htype : "String" = type
  · subst htype
    cases hencoder
    have hfits : json.fitsScalar "String" = true := hjson
    cases json with
    | string t => exact ⟨_, rfl, rfl⟩
    | _ => cases hfits
  · simp [Registry.encoder?, registry, htype] at hencoder

def engine : Engine := .ofMapping (.documents (registry encode))

/-- The names of all heroes, and of the friends of humans. -/
def request : EngineRequest :=
  ⟨"{ heroes { name ... on Human { friends { name } } } }", none, none, true⟩

theorem avoidsIntrospection : request.avoidsIntrospection = true := by decide +kernel

/-- With an encoder that ends all texts the same way the data have their types. -/
theorem heroes_are_typed :
    schema.Coherent ∧ (registry (.suffix "!")).Documented ∧
      (registry (.suffix "!")).EncodersFit ∧ request.avoidsIntrospection = true ∧
      ((engine (.suffix "!")).compile request).problems = [] ∧
      ∃ q, (engine (.suffix "!")).compile request = .success q ∧ ∀ s, ∃ data,
        (((engine (.suffix "!")).run q).run s).1 = .success data ∧
          Query.Typed schema q (.named "Query") data := by
  have hcompiles : ((engine (.suffix "!")).compile request).problems = [] := by decide +kernel
  exact ⟨coherent, documented _, encodersFit "!", avoidsIntrospection, hcompiles,
    Engine.responses_are_typed rfl coherent (documented _) (encodersFit "!") avoidsIntrospection
      hcompiles⟩

/-- An encoder may also fail, which is a problem of a request that compiles without any. -/
theorem failing_encoder_is_reported :
    schema.Coherent ∧ (registry (.fail "no text")).Documented ∧
      request.avoidsIntrospection = true ∧
      ((engine (.fail "no text")).compile request).problems = [] ∧
      (((engine (.fail "no text")).runCompiled ((engine (.fail "no text")).compile request)).run
        (.start fun _ _ => .ok ⟨[], []⟩)).1.problems ≠ [] := by
  refine ⟨coherent, documented _, avoidsIntrospection, ?_, ?_⟩
  · decide +kernel
  · decide +kernel

end Cast

end MappedQuery
