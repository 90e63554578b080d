import MappedQuery.Proofs.DeclaredNames

/-!
# References to types

Introspection and the text of a type say the opposite of a wrapper of nullability: both mark where
null is excluded, introspection by a reference around the others and the text by a sign behind the
type. As no type is made nullable twice in a row, nothing is lost. A reference is decoded by its
kinds, whatever the schema, and a text is taken apart from its first character on, where the names
of types are proper names.
-/
namespace MappedQuery

/-- A member of a document is smaller than the document. -/
theorem Json.sizeOf_lt_of_get? {key : String} {doc inner : Json} (h : doc.get? key = some inner) :
    sizeOf inner < sizeOf doc := by
  cases doc with
  | object members =>
    obtain ⟨⟨k, v⟩, hm, rfl⟩ := Option.map_eq_some_iff.1 h
    have hlt := List.sizeOf_lt_of_mem (List.mem_of_find?_eq_some hm)
    simp only [Prod.mk.sizeOf_spec, Json.object.sizeOf_spec] at hlt ⊢
    omega
  | _ => cases h

namespace TypeRef

/-- The type that excludes null, of one that admits it. -/
def required? : TypeRef → Option TypeRef
  | nullable inner => some inner
  | _ => none

end TypeRef

/-! ## Decoded references -/

namespace Introspection

/-- The type that a document refers to, told by the kinds in it. -/
def referredType? (doc : Json) : Option TypeRef :=
  let wrapped? :=
    match _h : doc.get? "ofType" with
    | some inner => referredType? inner
    | none => none
  match (doc.get? "kind").bind Json.asString? with
  | none => none
  | some kind =>
    if kind = "NON_NULL" then wrapped?.bind TypeRef.required?
    else if kind = "LIST" then wrapped?.map fun item => .nullable (.list item)
    else ((doc.get? "name").bind Json.asString?).map fun name => .nullable (.named name)
termination_by sizeOf doc
decreasing_by exact Json.sizeOf_lt_of_get? _h

section Decoding

variable {s : Schema} {doc inner : Json}

/-- What is wrapped is decoded first. -/
theorem referredType?_of_kind {kind : String} (hkind : doc.get? "kind" = some (.string kind)) :
    referredType? doc =
      if kind = "NON_NULL" then
        ((doc.get? "ofType").bind referredType?).bind TypeRef.required?
      else if kind = "LIST" then
        ((doc.get? "ofType").bind referredType?).map fun item => .nullable (.list item)
      else
        ((doc.get? "name").bind Json.asString?).map fun name => .nullable (.named name) := by
  rw [referredType?, hkind]
  cases hinner : doc.get? "ofType" <;> simp [Json.asString?]

theorem referredType?_nonNull (hkind : doc.get? "kind" = some (.string "NON_NULL"))
    (hinner : doc.get? "ofType" = some inner) :
    referredType? doc = (referredType? inner).bind TypeRef.required? := by
  rw [referredType?_of_kind hkind, if_pos rfl, hinner, Option.bind_some]

theorem referredType?_list (hkind : doc.get? "kind" = some (.string "LIST"))
    (hinner : doc.get? "ofType" = some inner) :
    referredType? doc = (referredType? inner).map fun item => .nullable (.list item) := by
  rw [referredType?_of_kind hkind, if_neg (by decide), if_pos rfl, hinner, Option.bind_some]

theorem kindOf_ne_wrapper (s : Schema) (name : String) :
    kindOf s name ≠ "NON_NULL" ∧ kindOf s name ≠ "LIST" := by
  unfold kindOf
  cases s.find? name with
  | none => decide
  | some d => cases d <;> exact ⟨by simp [TypeDefinition.kind], by simp [TypeDefinition.kind]⟩

theorem referredType?_named {name : String} (h : Names s name doc) :
    referredType? doc = some (.nullable (.named name)) := by
  have hname : doc.get? "name" = some (.string name) := h.name
  obtain ⟨hnonNull, hlist⟩ := kindOf_ne_wrapper s name
  rw [referredType?_of_kind h.kind, if_neg hnonNull, if_neg hlist, hname]
  rfl

/-- A document that refers to a type is decoded as it, if nothing is nullable twice in a row. -/
theorem RefersTo.referredType?_eq {t : TypeRef} (h : RefersTo s t doc) (ht : t.OnceNullable) :
    referredType? doc = some t := by
  induction h with
  | named h => exact referredType?_named h
  | list hkind hinner _ ih => rw [referredType?_list hkind hinner, ih ht.2, Option.map_some]
  | nested => nomatch ht.1
  | nonNull hcore hkind hinner _ ih =>
    rw [referredType?_nonNull hkind hinner, ih ⟨hcore, ht⟩]
    rfl

end Decoding

end Introspection

/-! ## Texts -/

namespace TypeRef

open Document Value

section Texts

variable {t u : TypeRef} {r r' : List Char}

theorem eq_of_nonNull (h : t.nonNull = u.nonNull) (hmark : t.mark = u.mark) : t = u := by
  cases t with
  | nullable t =>
    cases u with
    | nullable u => exact congrArg nullable h
    | named | list => simp [mark] at hmark
  | named | list =>
    cases u with
    | nullable u => simp [mark] at hmark
    | named | list => exact h

theorem bare_nonNull (t : TypeRef) : t.nonNull.bare = t.bare := by
  cases t <;> rfl

theorem underlying_nonNull (t : TypeRef) : t.nonNull.underlying = t.underlying := by
  cases t <;> rfl

theorem OnceNullable.nonNull (ht : t.OnceNullable) :
    t.nonNull.OnceNullable ∧ t.nonNull.isNullable = false := by
  cases t with
  | nullable inner => exact ht.symm
  | named | list => exact ⟨ht, rfl⟩

theorem nonNull_of_not_nullable (ht : t.isNullable = false) : t.nonNull = t := by
  cases t with
  | nullable inner => cases ht
  | named | list => rfl

theorem bare_list (item : TypeRef) (r : List Char) :
    (list item).bare.toList ++ r = '[' :: (item.bare.toList ++ (item.mark.toList ++ ']' :: r)) := by
  simp [bare]

/-- A mark ends where no mark follows. -/
theorem mark_append_inj (hr : ∀ c ∈ r.head?, c ≠ '!') (hr' : ∀ c ∈ r'.head?, c ≠ '!')
    (h : t.mark.toList ++ r = u.mark.toList ++ r') : t.mark = u.mark ∧ r = r' := by
  have hmark (t : TypeRef) : ∀ c ∈ t.mark.toList, (c == '!') = true := by
    cases t <;> simp [mark]
  have hstop {r : List Char} (hr : ∀ c ∈ r.head?, c ≠ '!') :
      ∀ c ∈ r.head?, (c == '!') = false := fun c hc => beq_false_of_ne (hr c hc)
  obtain ⟨heq, hrest⟩ := run_append_inj (hmark t) (hmark u) (hstop hr) (hstop hr') h
  exact ⟨String.toList_inj.1 heq, hrest⟩

/-- A name is no text of a list. -/
theorem name_append_ne {name : String} (hname : isName name = true) :
    name.toList ++ r ≠ '[' :: r' := by
  obtain ⟨c, cs, hcs, hc, -⟩ := isName_iff.1 hname
  rw [hcs]
  intro h
  rw [(List.cons.inj h).1] at hc
  revert hc
  decide

theorem head?_mark (t : TypeRef) :
    ∀ c ∈ (t.mark.toList ++ ']' :: r).head?, Token.continuesName c = false := by
  cases t <;> simp [mark, Token.continuesName]

/-- Two types, the second of which excludes null, are the same but for nullability if their texts
without marks are, whatever follows that is no character of a name. -/
theorem bare_append_inj (ht : t.OnceNullable) (hu : u.OnceNullable) (hcore : u.isNullable = false)
    (htname : isName t.underlying = true) (huname : isName u.underlying = true)
    (hr : ∀ c ∈ r.head?, Token.continuesName c = false)
    (hr' : ∀ c ∈ r'.head?, Token.continuesName c = false)
    (h : t.bare.toList ++ r = u.bare.toList ++ r') : t.nonNull = u ∧ r = r' := by
  induction t generalizing u r r' with
  | nullable inner ih =>
    obtain ⟨heq, hrest⟩ := ih ht.2 hu hcore htname huname hr hr' h
    exact ⟨(nonNull_of_not_nullable ht.1).symm.trans heq, hrest⟩
  | named name =>
    cases u with
    | nullable u => cases hcore
    | named name' =>
      obtain ⟨heq, hrest⟩ :=
        run_append_inj (chars_of_isName htname) (chars_of_isName huname) hr hr' h
      exact ⟨congrArg named (String.toList_inj.1 heq), hrest⟩
    | list item =>
      rw [bare_list] at h
      exact absurd h (name_append_ne htname)
  | list item ih =>
    cases u with
    | nullable u => cases hcore
    | named name =>
      rw [bare_list] at h
      exact absurd h.symm (name_append_ne huname)
    | list item' =>
      -- the items are compared without nullability, which their marks tell
      rw [bare_list, bare_list, ← bare_nonNull item'] at h
      obtain ⟨honce, hnonNull⟩ := OnceNullable.nonNull (t := item') hu
      obtain ⟨heq, hmarks⟩ := ih ht honce hnonNull htname
        ((congrArg isName (underlying_nonNull item')).trans huname) (head?_mark item)
        (head?_mark item') (List.cons.inj h).2
      obtain ⟨hmark, hrest⟩ := mark_append_inj (by simp) (by simp) hmarks
      exact ⟨congrArg list (eq_of_nonNull heq hmark), (List.cons.inj hrest).2⟩

/-- Types with proper names are determined by their texts. -/
theorem eq_of_display (ht : t.OnceNullable) (hu : u.OnceNullable)
    (htname : isName t.underlying = true) (huname : isName u.underlying = true)
    (h : t.display = u.display) : t = u := by
  obtain ⟨honce, hnonNull⟩ := hu.nonNull
  have hmark (t : TypeRef) : ∀ c ∈ t.mark.toList.head?, Token.continuesName c = false := by
    cases t <;> simp [mark, Token.continuesName]
  have hchars : t.bare.toList ++ t.mark.toList = u.nonNull.bare.toList ++ u.mark.toList := by
    rw [bare_nonNull, ← String.toList_append, ← String.toList_append]
    exact congrArg String.toList h
  obtain ⟨heq, hmarks⟩ := bare_append_inj ht honce hnonNull htname
    ((congrArg isName (underlying_nonNull u)).trans huname) (hmark t) (hmark u) hchars
  exact eq_of_nonNull heq (String.toList_inj.1 hmarks)

end Texts

/-- The reference to a type that is nowhere nullable twice in a row is decoded as that type, by any
schema. The names of the types of an accepted schema are such that types over them are the same if
their texts are. Types that are read from a document are of this form. -/
theorem references_are_read_back :
    (∀ (s : Schema) (t : TypeRef), t.OnceNullable →
      Introspection.referredType? (Introspection.typeReference s t) = some t) ∧
    (∀ (text : String) (s : Schema), Schema.parse text = .ok s → ∀ t u : TypeRef,
      t.OnceNullable → u.OnceNullable → s.hasType t.underlying = true →
      s.hasType u.underlying = true → t.display = u.display → t = u) ∧
    ∀ (depth : Nat) (tokens rest : List Token) (t : TypeRef),
      (typeRef depth).run tokens = some (t, rest) → t.OnceNullable := by
  refine ⟨fun s t => (Introspection.refersTo_typeReference s t).referredType?_eq, ?_, ?_⟩
  · intro text s hs t u ht hu htname huname
    exact eq_of_display ht hu (Schema.isName_of_parse hs htname) (Schema.isName_of_parse hs huname)
  · intro depth tokens rest t h
    have hkind : ∀ token ∈ tokens, (fun _ : Token => True) token := fun _ _ => trivial
    exact (yields_typeRef depth tokens hkind t rest h).1.1

end TypeRef

namespace Grids

/-- The type of rows that may be missing, of cells that may not. -/
def cells : TypeRef := .list (.nullable (.list (.named "Int")))

def query : TypeDefinition := .object ⟨"Query", [⟨"cells", [], cells⟩], []⟩

def schema : Schema := .ofTypes [query] "Query"

def text : String := "type Query { cells: [[Int!]]! }"

/-- The tokens of the text of a type. -/
def cellTokens : List Document.Token :=
  [.punctuator '[', .punctuator '[', .name "Int", .punctuator '!', .punctuator ']',
    .punctuator ']', .punctuator '!']

def tokens : List Document.Token :=
  [.name "type", .name "Query", .punctuator '{', .name "cells", .punctuator ':'] ++ cellTokens ++
    [.punctuator '}']

theorem scan_tokens : Document.Token.scan? text = some tokens := by decide +kernel

theorem declarations_of_tokens :
    (Document.Parser.itemsToEnd Document.declaration tokens.length).run tokens =
      some ([.type query], []) := by
  cbv

theorem parse_schema : Schema.parse text = .ok schema := by
  rw [Schema.parse_of_tokens scan_tokens declarations_of_tokens rfl]
  rfl

theorem read_cells : (Document.typeRef 2).run cellTokens = some (cells, []) := by cbv

/-- The type of the cells is read back from its reference and, among types over the schema, from its
text. -/
theorem cells_are_read_back :
    Schema.parse text = .ok schema ∧ cells.OnceNullable ∧
      Introspection.referredType? (Introspection.typeReference schema cells) = some cells ∧
      (TypeRef.list (TypeRef.orNull (.list (.named "Int")))).display = cells.display ∧
      TypeRef.list (TypeRef.orNull (.list (.named "Int"))) = cells := by
  obtain ⟨hreference, htext, hread⟩ := TypeRef.references_are_read_back
  have hcells : cells.OnceNullable := hread 2 cellTokens [] cells read_cells
  refine ⟨parse_schema, hcells, hreference schema cells hcells, rfl, ?_⟩
  exact htext text schema parse_schema _ _ hcells hcells rfl rfl rfl

end Grids

end MappedQuery
