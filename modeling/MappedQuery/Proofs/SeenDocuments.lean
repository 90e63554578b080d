import MappedQuery.Proofs.TypeSoundness

/-!
# What a query shows of a document

Where no type stands for others and every field of an object is the member of its name, what a
query shows of a document is a function of the two: the selected members under their keys, lists
element by element, leaves and null as they are. It does not matter for it whether the query is the
one that is written or what elaboration leaves of it, and what is shown has the type that the
document has.
-/
namespace MappedQuery

namespace Schema

/-- Every type stands for itself only, and no field leads to the query type. -/
structure Flat (s : Schema) : Prop where
  interfaces : ∀ d ∈ s.types, d.interfaces = []
  concrete : ∀ d ∈ s.types, d.isAbstract = false
  queryFields : ∀ d ∈ s.types, ∀ f ∈ d.fields, f.type.underlying ≠ s.queryType

namespace Flat

variable {s : Schema}

theorem interfaces_eq_nil (hs : s.Flat) (type : String) : s.interfaces type = [] := by
  rw [Schema.interfaces]
  cases hfind : s.find? type with
  | none => rfl
  | some d => exact hs.interfaces d (List.mem_of_find?_eq_some hfind)

theorem isAbstract_eq_false (hs : s.Flat) (type : String) : s.isAbstract type = false := by
  rw [isAbstract]
  cases hfind : s.find? type with
  | none => rfl
  | some d => exact hs.concrete d (List.mem_of_find?_eq_some hfind)

theorem unionMembers_eq_nil (hs : s.Flat) (type : String) : s.unionMembers type = [] := by
  have hconcrete := hs.isAbstract_eq_false type
  rw [isAbstract] at hconcrete
  rw [unionMembers]
  cases hfind : s.find? type with
  | none => rfl
  | some d =>
    rw [hfind] at hconcrete
    cases d with
    | union => cases hconcrete
    | _ => rfl

theorem isSubtype_iff (hs : s.Flat) {sub sup : String} :
    s.isSubtype sub sup = true ↔ sub = sup := by
  rw [isSubtype, search_of_no_interfaces (hs.interfaces_eq_nil sub), hs.unionMembers_eq_nil]
  by_cases h : sub = sup <;> simp [h]

theorem field?_eq (hs : s.Flat) (type name : String) :
    s.field? type name = s.ownField? name type := by
  rw [field?, search_of_no_interfaces (hs.interfaces_eq_nil type)]

theorem field?_ne_queryType (hs : s.Flat) {type name : String} {f : FieldDefinition}
    (hf : s.field? type name = some f) : f.type.underlying ≠ s.queryType := by
  rw [hs.field?_eq, ownField?] at hf
  obtain ⟨d, hd, hfield⟩ := Option.bind_eq_some_iff.1 hf
  exact hs.queryFields d (List.mem_of_find?_eq_some hd) f (List.mem_of_find?_eq_some hfield)

theorem allows (hs : s.Flat) {type : String} (h : s.IsObject type) : s.Allows type type :=
  ⟨h, hs.isSubtype_iff.2 rfl⟩

end Flat

theorem IsObject.isLeaf_eq_false {s : Schema} {type : String} (h : s.IsObject type) :
    s.isLeaf type = false := by
  obtain ⟨o, ho⟩ := h
  rw [isLeaf, ho]
  rfl

/-- A document matches a type whose objects need not name theirs: its leaves are texts and truth
values, and a field without a member is null. -/
inductive Matches (s : Schema) : TypeRef → Json → Prop
  | null {inner : TypeRef} : Matches s (.nullable inner) .null
  | present {inner : TypeRef} {doc : Json} (h : Matches s inner doc) :
    Matches s (.nullable inner) doc
  | list {item : TypeRef} {docs : List Json} (h : ∀ doc ∈ docs, Matches s item doc) :
    Matches s (.list item) (.array docs)
  | text {type text : String} (h : s.leafFits type (.string text) = true) :
    Matches s (.named type) (.string text)
  | truth {type : String} {b : Bool} (h : s.leafFits type (.bool b) = true) :
    Matches s (.named type) (.bool b)
  | object {type : String} {members : List (String × Json)} (hobject : s.IsObject type)
    (h : ∀ name f, s.field? type name = some f →
      Matches s f.type (((Json.object members).get? name).getD .null)) :
    Matches s (.named type) (.object members)

/-- The members of an object match the fields of its type. -/
theorem Matches.fields {s : Schema} {type : String} {doc : Json} (h : s.Matches (.named type) doc)
    (hobject : s.IsObject type) {name : String} {f : FieldDefinition}
    (hf : s.field? type name = some f) : s.Matches f.type ((doc.get? name).getD .null) := by
  cases h with
  | text hfits | truth hfits =>
    have hleaf := isLeaf_of_leafFits hfits
    rw [hobject.isLeaf_eq_false] at hleaf
    cases hleaf
  | object _ hfields => exact hfields name f hf

end Schema

/-- The document with its named parts replaced, as a type says where these are. -/
def Json.mapAt (part : Json → Json) : TypeRef → Json → Json
  | .nullable inner, doc => if doc.isNull then .null else mapAt part inner doc
  | .list item, .array docs => .array (docs.map (mapAt part item))
  | .list _, doc => doc
  | .named _, doc => part doc

namespace Query

mutual

/-- The members that a query shows of an object of a type. -/
def shownMembers (s : Schema) (type : String) : Query → Json → Members
  | .select name alias? _ child, doc =>
    let key := alias?.getD name
    if name = "__typename" then [(key, .string type)]
    else
      match s.field? type name with
      | none => []
      | some f =>
        let below := f.type.underlying
        let part (doc : Json) : Json :=
          if s.isLeaf below then doc else Json.ofMembers (child.shownMembers s below doc)
        [(key, Json.mapAt part f.type ((doc.get? name).getD .null))]
  | .narrow condition child, doc => if condition = type then child.shownMembers s type doc else []
  | .group queries, doc => allShownMembers s type queries doc
  | .empty, _ | .filter .., _ | .unique _, _ | .limit .., _ | .orderBy .., _ | .component .., _
  | .introspect _, _ => []

def allShownMembers (s : Schema) (type : String) : List Query → Json → Members
  | [], _ => []
  | q :: rest, doc => q.shownMembers s type doc ++ allShownMembers s type rest doc

end

/-- What a query shows of the named part of a document. -/
def shownPart (s : Schema) (q : Query) (type : String) (doc : Json) : Json :=
  if s.isLeaf type then doc else Json.ofMembers (q.shownMembers s type doc)

/-- What a query shows of a document at a type. -/
def shown (s : Schema) (q : Query) (type : TypeRef) (doc : Json) : Json :=
  Json.mapAt (q.shownPart s type.underlying) type doc

section Shown

variable {s : Schema} {type : String}

theorem shownMembers_select {name : String} (hname : name ≠ "__typename") {f : FieldDefinition}
    (hf : s.field? type name = some f) (alias? : Option String) (bindings : List Binding)
    (child : Query) (doc : Json) :
    (Query.select name alias? bindings child).shownMembers s type doc =
      [(alias?.getD name, child.shown s f.type ((doc.get? name).getD .null))] := by
  rw [shownMembers, if_neg hname, hf]
  rfl

mutual

/-- The members that a query shows are those of its members. -/
theorem shownMembers_eq_flatMap (doc : Json) : ∀ q : Query,
    q.shownMembers s type doc = q.members.flatMap (·.shownMembers s type doc)
  | .group queries => by
    rw [shownMembers, members]
    exact allShownMembers_membersAll doc queries
  | .empty => rfl
  | .select .. | .narrow .. | .filter .. | .unique _ | .limit .. | .orderBy .. | .component ..
  | .introspect _ => by
    rw [members, List.flatMap_singleton] <;> simp

theorem allShownMembers_membersAll (doc : Json) : ∀ qs : List Query,
    allShownMembers s type qs doc = (membersAll qs).flatMap (·.shownMembers s type doc)
  | [] => rfl
  | q :: rest => by
    rw [allShownMembers, membersAll, List.flatMap_append, shownMembers_eq_flatMap doc q,
      allShownMembers_membersAll doc rest]

end

theorem shownMembers_grouped (qs : List Query) (doc : Json) :
    (grouped qs).shownMembers s type doc = allShownMembers s type qs doc := by
  rw [shownMembers_eq_flatMap, members_grouped, allShownMembers_membersAll]

theorem shown_congr {q q' : Query} (type : TypeRef)
    (h : ∀ doc, q.shownMembers s type.underlying doc = q'.shownMembers s type.underlying doc)
    (doc : Json) : q.shown s type doc = q'.shown s type doc := by
  have hpart : q.shownPart s type.underlying = q'.shownPart s type.underlying := by
    funext part
    rw [shownPart, shownPart, h]
  rw [shown, shown, hpart]

/-- An object type shows an object, whatever the document is. -/
theorem exists_shown_named (hobject : s.IsObject type) (q : Query) (doc : Json) :
    ∃ members, q.shown s (.named type) doc = .object members := by
  rw [shown, Json.mapAt, shownPart, TypeRef.underlying, hobject.isLeaf_eq_false,
    if_neg Bool.false_ne_true]
  exact ⟨_, rfl⟩

end Shown

section Typing

variable {s : Schema}

/-- A query shows members of the types of its selections. -/
def ShowsTyped (s : Schema) (q : Query) : Prop :=
  ∀ type doc, s.IsObject type → q.ChecksOn s type →
    (∀ name f, s.field? type name = some f → s.Matches f.type ((doc.get? name).getD .null)) →
      List.Forall₂ (MemberOf s type) (q.selectionsOn s type) (q.shownMembers s type doc)

/-- What is shown of a document that matches a type has the type. -/
theorem typed_shown_of (hs : s.Flat) {q : Query} (hq : ShowsTyped s q) {type : TypeRef} {doc : Json}
    (hdoc : s.Matches type doc) (hchecks : q.ChecksOn s type.underlying) :
    Typed s q type (q.shown s type doc) := by
  induction hdoc with
  | null => exact .null
  | @present inner doc _ ih =>
    by_cases hnull : doc.isNull = true
    · rw [shown, Json.mapAt, if_pos hnull]
      exact .null
    · rw [shown, Json.mapAt, if_neg hnull]
      exact .present (ih hchecks)
  | list h ih =>
    refine .list fun doc hdoc => ?_
    obtain ⟨e, he, rfl⟩ := List.mem_map.1 hdoc
    exact ih e he hchecks
  | text h | truth h =>
    rw [shown, Json.mapAt, shownPart, TypeRef.underlying, Schema.isLeaf_of_leafFits h]
    exact .leaf h
  | @object type members hobject h _ =>
    rw [shown, Json.mapAt, shownPart, TypeRef.underlying, hobject.isLeaf_eq_false,
      if_neg Bool.false_ne_true]
    exact .ofMembers (hs.allows hobject) (hq type _ hobject hchecks h)

mutual

theorem showsTyped (hs : s.Flat) : ∀ q : Query, ShowsTyped s q
  | .select name alias? bindings child => by
    intro type doc hobject hq hdoc
    rw [ChecksOn] at hq
    rw [selectionsOn]
    by_cases hname : name = "__typename"
    · rw [shownMembers, if_pos hname]
      exact .cons ⟨rfl, .typename hname⟩ .nil
    · obtain ⟨f, hf, hchild⟩ := hq.resolve_left hname
      rw [shownMembers_select hname hf]
      exact .cons ⟨rfl, .field hf (typed_shown_of hs (showsTyped hs child) (hdoc name f hf) hchild)⟩
        .nil
  | .narrow condition child => by
    intro type doc hobject hq hdoc
    rw [ChecksOn] at hq
    rw [selectionsOn, shownMembers]
    by_cases hcondition : condition = type
    · subst hcondition
      rw [if_pos (hs.isSubtype_iff.2 rfl), if_pos rfl]
      exact showsTyped hs child condition doc hobject hq hdoc
    · rw [if_neg fun h => hcondition (hs.isSubtype_iff.1 h).symm, if_neg hcondition]
      exact .nil
  | .group queries => by
    intro type doc hobject hq hdoc
    rw [ChecksOn] at hq
    rw [selectionsOn, shownMembers]
    exact allShowTyped hs queries type doc hobject hq hdoc
  | .empty => by
    intro type doc hobject hq hdoc
    rw [selectionsOn, shownMembers]
    exact .nil
  | .filter .. | .unique _ | .limit .. | .orderBy .. | .component .. | .introspect _ => by
    intro type doc hobject hq hdoc
    rw [ChecksOn] at hq
    exact absurd hq id

theorem allShowTyped (hs : s.Flat) : ∀ (qs : List Query) (type : String) (doc : Json),
    s.IsObject type → AllCheckOn s type qs →
      (∀ name f, s.field? type name = some f → s.Matches f.type ((doc.get? name).getD .null)) →
        List.Forall₂ (MemberOf s type) (allSelectionsOn s type qs) (allShownMembers s type qs doc)
  | [], _, _, _, _, _ => .nil
  | q :: rest, type, doc, hobject, hqs, hdoc => by
    rw [AllCheckOn] at hqs
    rw [allSelectionsOn, allShownMembers]
    exact List.rel_append (showsTyped hs q type doc hobject hqs.1 hdoc)
      (allShowTyped hs rest type doc hobject hqs.2 hdoc)

end

/-- What a checked query shows of a document that matches a type has the type. -/
theorem typed_shown (hs : s.Flat) {q : Query} {type : TypeRef} {doc : Json}
    (hdoc : s.Matches type doc) (hq : q.ChecksOn s type.underlying) :
    Typed s q type (q.shown s type doc) :=
  typed_shown_of hs (showsTyped hs q) hdoc hq

end Typing

end Query

/-- Every type stands for itself only, nothing is delegated, and only root fields have
elaborators. -/
structure Mapping.PlainBelow (m : Mapping) : Prop where
  flat : m.schema.Flat
  elaborator : ∀ type name, type ≠ m.schema.queryType → m.elaborator? type name = none
  delegate : ∀ path type name d, m.resolve path type name ≠ .delegated d

/-- Where no type has interfaces, a field is mapped by the type itself. -/
theorem Registry.fieldMapping?_of_flat {φ ρ μ : Type} [SourceField φ] {r : Registry φ ρ μ}
    (hr : r.schema.Flat) (path : List String) (type name : String) :
    r.fieldMapping? path type name = (r.objectMapping? path type).bind (·.field? name) := by
  rw [fieldMapping?, Schema.search_of_no_interfaces (hr.interfaces_eq_nil type)]

/-- A registry that reads every field of an object from the member of its name and encodes
nothing. -/
structure Registry.Plain (r : DocumentRegistry) : Prop where
  flat : r.schema.Flat
  fields : ∀ path object name f, r.schema.IsObject object → object ≠ r.schema.queryType →
    r.schema.field? object name = some f →
      r.fieldMapping? path object name = some (.source (.same name))
  encoder : ∀ type, r.encoder? type = none

namespace Query

/-- Two queries are checked on a type and show the same of its objects. -/
structure ShowsSame (s : Schema) (type : String) (q q' : Query) : Prop where
  written : q.ChecksOn s type
  left : q'.ChecksOn s type
  members : ∀ doc, q'.shownMembers s type doc = q.shownMembers s type doc

section Elaborated

variable {m : Mapping}

mutual

/-- What elaboration leaves below a root shows what the written query shows. -/
theorem showsSame_elaborate (hm : m.PlainBelow) : ∀ {q q' : Query} {type : String}
    {path : List String}, type ≠ m.schema.queryType → q.isWritten = true →
      q.elaborate m type path = .success q' → ShowsSame m.schema type q q'
  | .select name alias? bindings child, q', type, path, htype, hq, h => by
    rw [isWritten] at hq
    rcases elaborate_select_unreplaced (Mapping.delegateTarget?_eq_none (hm.delegate _ _ _))
      (hm.elaborator type name htype) h with ⟨hname, rfl⟩ | ⟨f, bindings', child', hf, hchild, rfl⟩
    · have hchecks : (Query.select name alias? bindings child).ChecksOn m.schema type := by
        rw [ChecksOn]
        exact .inl hname
      exact ⟨hchecks, hchecks, fun _ => rfl⟩
    · have hsame := showsSame_elaborate hm (hm.flat.field?_ne_queryType hf) hq hchild
      refine ⟨?_, ?_, fun doc => ?_⟩
      · rw [ChecksOn]
        exact .inr ⟨f, hf, hsame.written⟩
      · rw [ChecksOn]
        exact .inr ⟨f, hf, hsame.left⟩
      · by_cases hname : name = "__typename"
        · rw [shownMembers, shownMembers, if_pos hname, if_pos hname]
        · rw [shownMembers_select hname hf, shownMembers_select hname hf,
            shown_congr f.type hsame.members]
  | .narrow condition child, q', type, path, htype, hq, h => by
    rw [isWritten] at hq
    rw [elaborate] at h
    split at h
    · rename_i hcondition
      have hsame := showsSame_elaborate hm htype hq h
      refine ⟨?_, hsame.left, fun doc => ?_⟩
      · rw [ChecksOn, hcondition]
        exact hsame.written
      · rw [hsame.members, shownMembers, if_pos hcondition]
    · rename_i hother
      split at h
      · exact absurd h dropped_ne_success
      · split at h
        · -- a type that stands for itself only applies to no other
          rename_i happlies
          rw [Bool.or_eq_true, hm.flat.isSubtype_iff, hm.flat.isSubtype_iff] at happlies
          exact absurd (happlies.elim id Eq.symm) hother
        · exact absurd h dropped_ne_success
  | .group queries, q', type, path, htype, hq, h => by
    rw [isWritten] at hq
    rw [elaborate] at h
    obtain ⟨qs, hqs, rfl⟩ := Outcome.map_eq_success.1 h
    obtain ⟨hwritten, hleft, hmembers⟩ := showsSame_elaborateAll hm htype (areWritten_iff.1 hq)
      (Outcome.collect_eq_success.1 hqs)
    refine ⟨(checksOn_group queries).2 hwritten, checksOn_grouped hleft, fun doc => ?_⟩
    rw [shownMembers_grouped, hmembers, shownMembers]
  | .empty, q', type, path, htype, hq, h => by
    rw [elaborate] at h
    · injection h with hvalue
      rw [← Option.some.inj hvalue]
      exact ⟨trivial, trivial, fun _ => rfl⟩
    all_goals simp
  | .filter .., q', type, path, htype, hq, h | .unique _, q', type, path, htype, hq, h
  | .limit .., q', type, path, htype, hq, h | .orderBy .., q', type, path, htype, hq, h
  | .component .., q', type, path, htype, hq, h | .introspect _, q', type, path, htype, hq, h => by
    rw [isWritten] at hq
    cases hq

theorem showsSame_elaborateAll (hm : m.PlainBelow) : ∀ {qs qs' : List Query} {type : String}
    {path : List String}, type ≠ m.schema.queryType → (∀ q ∈ qs, q.isWritten = true) →
      List.Forall₂ (fun o q => o = .success q) (elaborateAll m type path qs) qs' →
        (∀ q ∈ qs, q.ChecksOn m.schema type) ∧ (∀ q ∈ qs', q.ChecksOn m.schema type) ∧
          ∀ doc, allShownMembers m.schema type qs' doc = allShownMembers m.schema type qs doc
  | [], qs', type, path, htype, hqs, h => by
    rw [elaborateAll] at h
    cases h
    exact ⟨nofun, nofun, fun _ => rfl⟩
  | q :: rest, qs', type, path, htype, hqs, h => by
    rw [elaborateAll] at h
    cases h with
    | cons hfirst hrest =>
      have hsame := showsSame_elaborate hm htype (hqs q List.mem_cons_self) hfirst
      obtain ⟨hwritten, hleft, hmembers⟩ := showsSame_elaborateAll hm htype
        (fun b hb => hqs b (List.mem_cons_of_mem _ hb)) hrest
      refine ⟨List.forall_mem_cons.2 ⟨hsame.written, hwritten⟩,
        List.forall_mem_cons.2 ⟨hsame.left, hleft⟩, fun doc => ?_⟩
      rw [allShownMembers, allShownMembers, hsame.members, hmembers]

end

end Elaborated

end Query

namespace Cursor

/-- A position that holds an object of a type, with members that match the fields of the type. -/
structure HasObject (c : Cursor) (r : DocumentRegistry) (type : String) (doc : Json) : Prop where
  focus : c.focus = .document r doc
  declared : c.type = .named type
  isObject : r.schema.IsObject type
  notQuery : type ≠ r.schema.queryType
  fields : ∀ name f, r.schema.field? type name = some f →
    r.schema.Matches f.type ((doc.get? name).getD .null)

namespace HasObject

variable {c : Cursor} {r : DocumentRegistry} {type : String} {doc : Json}

theorem concreteType (h : c.HasObject r type doc) (hr : r.Plain) : c.concreteType = .ok type := by
  rw [Cursor.concreteType, h.declared, schema_document h.focus]
  exact if_neg (by rw [TypeRef.underlying, hr.flat.isAbstract_eq_false]; exact Bool.false_ne_true)

theorem isLeaf (h : c.HasObject r type doc) : c.isLeaf = false := by
  rw [Cursor.isLeaf, h.declared, schema_document h.focus]
  exact h.isObject.isLeaf_eq_false

theorem narrowsTo (h : c.HasObject r type doc) (hr : r.Plain) (t : String) :
    c.narrowsTo t = r.schema.isSubtype type t := by
  rw [Cursor.narrowsTo, h.concreteType hr, schema_document h.focus]

end HasObject

end Cursor

namespace Run

theorem returns_mapM_map {α β : Type} {f : α → Run β} {g : α → β} {l : List α}
    (h : ∀ a ∈ l, (f a).Returns (g a)) : (l.mapM f).Returns (l.map g) := by
  obtain ⟨bs, hbs, hall⟩ := returns_mapM (R := fun a b => g a = b) fun a ha => ⟨g a, h a ha, rfl⟩
  obtain rfl : l.map g = bs := List.forall₂_eq_eq_eq ▸ List.forall₂_map_left_iff.2 hall
  exact hbs

end Run

namespace Query

section Reading

variable {r : DocumentRegistry}

/-- A query reads the members that it shows. -/
def ReadsShown (r : DocumentRegistry) (q : Query) (read : Cursor → Run Members) : Prop :=
  ∀ c type doc, c.HasObject r type doc → q.ChecksOn r.schema type →
    (read c).Returns (q.shownMembers r.schema type doc)

/-- Texts and truth values are written as they are. -/
theorem encode_typedLeaf (hr : r.Plain) (type : String) {doc : Json}
    (hdoc : (∃ text, doc = .string text) ∨ ∃ b, doc = .bool b) :
    (Mapping.documents r).encode type (Cursor.typedLeaf r.schema type (.ofJson doc)) = .ok doc := by
  have hencoder : (Mapping.documents r).encoder? type = none := hr.encoder type
  rw [Mapping.encode, hencoder]
  rcases hdoc with ⟨text, rfl⟩ | ⟨b, rfl⟩
  · rw [Value.ofJson, Cursor.typedLeaf]
    split
    · rfl
    · split <;> rfl
  · rfl

theorem returns_readAs (hr : r.Plain) {q : Query} {read : Cursor → Run Members}
    (hread : ReadsShown r q read) :
    ∀ {type : TypeRef} {c : Cursor} {doc : Json}, c.focus = .document r doc → c.type = type →
      r.schema.Matches type doc → type.underlying ≠ r.schema.queryType →
        q.ChecksOn r.schema type.underlying →
          (readAs (.documents r) read type c).Returns (q.shown r.schema type doc)
  | .nullable inner, c, doc, hfocus, htype, hdoc, hquery, hq => by
    have hpresent := Run.returns_ofExcept (Cursor.present?_document hfocus htype)
    rw [readAs, shown, Json.mapAt]
    by_cases hnull : doc.isNull = true
    · rw [if_pos hnull] at hpresent ⊢
      exact hpresent.bind (Run.returns_pure _)
    · rw [if_neg hnull] at hpresent ⊢
      have hinner : r.schema.Matches inner doc := by
        cases hdoc with
        | null => exact absurd rfl hnull
        | present hinner => exact hinner
      exact hpresent.bind (returns_readAs hr hread (c := { c with type := inner }) hfocus rfl hinner
        hquery hq)
  | .list item, c, doc, hfocus, htype, hdoc, hquery, hq => by
    cases hdoc with
    | @list _ docs hall =>
      rw [readAs, Cursor.elements_document hfocus htype, List.mapM_map]
      refine (Run.returns_mapM_map fun e he => ?_).bind (Run.returns_pure _)
      exact returns_readAs hr hread rfl rfl (hall e he) hquery hq
  | .named type, c, doc, hfocus, htype, hdoc, hquery, hq => by
    have hleaf (hfits : r.schema.leafFits type doc = true)
        (hplain : (∃ text, doc = .string text) ∨ ∃ b, doc = .bool b) :
        (readAs (.documents r) read (.named type) c).Returns
          (q.shown r.schema (.named type) doc) := by
      obtain ⟨hisLeaf, hvalue⟩ := Cursor.leaf_document hfocus htype hfits
      rw [readAs, if_pos hisLeaf, shown, Json.mapAt, shownPart, TypeRef.underlying,
        if_pos (Schema.isLeaf_of_leafFits hfits)]
      exact Run.returns_ofExcept (bind_eq_ok.2 ⟨_, hvalue, encode_typedLeaf hr type hplain⟩)
    cases hdoc with
    | text hfits => exact hleaf hfits (.inl ⟨_, rfl⟩)
    | truth hfits => exact hleaf hfits (.inr ⟨_, rfl⟩)
    | object hobject hfields =>
      have hc : c.HasObject r type _ := ⟨hfocus, htype, hobject, hquery, hfields⟩
      rw [readAs, if_neg (by rw [hc.isLeaf]; exact Bool.false_ne_true), shown, Json.mapAt,
        shownPart, TypeRef.underlying, hobject.isLeaf_eq_false, if_neg Bool.false_ne_true]
      exact (hread c type _ hc hq).bind (Run.returns_pure _)

theorem returns_readAt (hr : r.Plain) {q : Query} {read : Cursor → Run Members}
    (hread : ReadsShown r q read) {c : Cursor} {doc : Json} (hfocus : c.focus = .document r doc)
    (hdoc : r.schema.Matches c.type doc) (hquery : c.type.underlying ≠ r.schema.queryType)
    (hq : q.ChecksOn r.schema c.type.underlying) :
    (readAt (.documents r) read q c).Returns (q.shown r.schema c.type doc) := by
  rw [readAt, if_neg (by rw [hq.not_isListOperation]; exact Bool.false_ne_true)]
  exact returns_readAs hr hread hfocus rfl hdoc hquery hq

variable {answers : Answers (.documents r)}

mutual

/-- A checked query reads of an object what it shows of it. -/
theorem readsShown_fields (hr : r.Plain) :
    ∀ q : Query, ReadsShown r q (fields (.documents r) answers q)
  | .group queries => by
    intro c type doc hc hq
    rw [ChecksOn] at hq
    rw [fields, shownMembers]
    exact readsShown_fieldsAll hr queries c type doc hc hq
  | .select name alias? bindings child => by
    intro c type doc hc hq
    rw [ChecksOn] at hq
    rw [fields]
    refine (Run.returns_ofExcept (hc.concreteType hr)).bind ?_
    by_cases hname : name = "__typename"
    · rw [if_pos hname, shownMembers, if_pos hname]
      exact Run.returns_pure _
    · obtain ⟨f, hf, hchild⟩ := hq.resolve_left hname
      obtain ⟨hresolve, hfield⟩ := Cursor.field_same hc.focus (hc.concreteType hr)
        (hr.fields c.path type name f hc.isObject hc.notQuery hf) hf
      rw [if_neg hname, shownMembers_select hname hf]
      split
      · refine (Run.returns_ofExcept hfield).bind (.bind ?_ (Run.returns_pure _))
        exact returns_readAt hr (readsShown_fields hr child) rfl (hc.fields name f hf)
          (hr.flat.field?_ne_queryType hf) hchild
      · rename_i hcomputed
        cases hresolve.symm.trans hcomputed
      · rename_i hdelegated
        cases hresolve.symm.trans hdelegated
  | .narrow condition child => by
    intro c type doc hc hq
    rw [ChecksOn] at hq
    rw [fields, shownMembers, hc.narrowsTo hr]
    by_cases hcondition : condition = type
    · subst hcondition
      have happlies : r.schema.isSubtype condition condition = true := hr.flat.isSubtype_iff.2 rfl
      have hnarrow : c.narrow condition = .ok { c with type := .named condition } := by
        rw [Cursor.narrow, hc.narrowsTo hr, if_pos happlies]
      rw [if_pos happlies, if_pos rfl]
      refine (Run.returns_ofExcept hnarrow).bind (returns_atObject hq ?_)
      exact readsShown_fields hr child _ condition doc
        ⟨hc.focus, rfl, hc.isObject, hc.notQuery, hc.fields⟩ hq
    · rw [if_neg fun h => hcondition (hr.flat.isSubtype_iff.1 h).symm, if_neg hcondition]
      exact Run.returns_pure _
  | .empty => by
    intro c type doc hc hq
    rw [fields, shownMembers]
    exact Run.returns_pure _
  | .filter .. | .unique _ | .limit .. | .orderBy .. | .component .. | .introspect _ => by
    intro c type doc hc hq
    rw [ChecksOn] at hq
    exact absurd hq id

theorem readsShown_fieldsAll (hr : r.Plain) : ∀ (qs : List Query) (c : Cursor) (type : String)
    (doc : Json), c.HasObject r type doc → AllCheckOn r.schema type qs →
      (fieldsAll (.documents r) answers qs c).Returns (allShownMembers r.schema type qs doc)
  | [], _, _, _, _, _ => Run.returns_pure _
  | q :: rest, c, type, doc, hc, hqs => by
    rw [AllCheckOn] at hqs
    rw [fieldsAll, allShownMembers]
    exact (returns_atObject hqs.1 (readsShown_fields hr q c type doc hc hqs.1)).bind
      ((readsShown_fieldsAll hr rest c type doc hc hqs.2).bind (Run.returns_pure _))

end

/-- A root field is read from its document. -/
theorem returns_readRoot (hr : r.Plain) (sel : Select) {f : FieldDefinition}
    (hf : r.schema.field? r.schema.queryType sel.name = some f) {doc : Json}
    (hdata : r.rootData? [] r.schema.queryType sel.name = some doc)
    (hdoc : r.schema.Matches f.type doc) (hq : sel.child.ChecksOn r.schema f.type.underlying) :
    ((Mapping.documents r).readRoot r.schema.queryType sel).Returns
      (sel.child.shown r.schema f.type doc) := by
  rw [Mapping.readRoot]
  refine (Mapping.returns_openRoot sel hdata hf).bind ?_
  exact returns_readAt hr (readsShown_fields hr sel.child) (c := ⟨[sel.name], f.type, _⟩) rfl hdoc
    (hr.flat.field?_ne_queryType hf) hq

end Reading

end Query

end MappedQuery
