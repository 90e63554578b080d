import MappedQuery.Proofs.ReadableDefaults
import MappedQuery.Proofs.TypeDescriptions

/-!
# Names in schema documents

A scanner makes name tokens of letters, digits and underscores only, and no parser makes a token of
its own. What a parser yields is therefore told by a property of tokens: if all tokens have it, then
so have those that are left, and the result is made of such tokens. Read through the grammar of
schema documents, this says that the types of every schema that is accepted have proper names.
-/
namespace MappedQuery

/-- No type is made nullable twice in a row. -/
def TypeRef.OnceNullable : TypeRef → Prop
  | named _ => True
  | list item => item.OnceNullable
  | nullable inner => inner.isNullable = false ∧ inner.OnceNullable

namespace Document

/-! ## Tokens -/

/-- A token that is a name has the characters of one. -/
def Token.WellNamed : Token → Prop
  | .name s => Value.isName s = true
  | _ => True

namespace Token

variable {c : Char} {cs rest : List Char} {t : Token}

theorem wellNamed_floatOf? {exponent : Int} (h : floatOf? cs exponent = some t) : t.WellNamed := by
  have hparts {whole fraction : List Char}
      (h : (wholeNumber? whole).bind (fun p =>
        some (float (Double.ofParts p.1 p.2 fraction exponent))) = some t) : t.WellNamed := by
    obtain ⟨p, -, h⟩ := Option.bind_eq_some_iff.1 h
    rw [← Option.some.inj h]
    trivial
  unfold floatOf? at h
  split at h
  · split at h
    · cases h
    · exact hparts h
  · exact hparts h

theorem wellNamed_number? (h : number? cs = some t) : t.WellNamed := by
  unfold number? at h
  split at h
  · obtain ⟨_, _, h⟩ := Option.bind_eq_some_iff.1 h
    exact wellNamed_floatOf? h
  · split at h
    · exact wellNamed_floatOf? h
    · obtain ⟨_, _, h⟩ := Option.bind_eq_some_iff.1 h
      obtain ⟨_, _, rfl⟩ := Option.map_eq_some_iff.1 h
      trivial

theorem wellNamed_next? (h : next? c cs = some (t, rest)) : t.WellNamed := by
  have hstring {body? : Option (List Char × List Char)} {text : List Char → String}
      (h : body?.map (fun p => (string (text p.1), p.2)) = some (t, rest)) : t.WellNamed := by
    obtain ⟨_, _, heq⟩ := Option.map_eq_some_iff.1 h
    cases heq
    trivial
  unfold next? at h
  split at h
  · cases h
    trivial
  · split at h
    · rename_i hstart
      rw [List.span_eq_takeWhile_dropWhile] at h
      cases h
      exact Value.isName_iff.2 ⟨c, _, String.toList_ofList, hstart, fun d => List.mem_takeWhile_imp⟩
    · split at h
      · obtain ⟨t', ht', heq⟩ := Option.map_eq_some_iff.1 h
        cases heq
        exact wellNamed_number? ht'
      · split at h
        · cases h
          trivial
        · exact hstring h
        · exact hstring h
        · cases h

theorem wellNamed_of_scanFrom {count opened : Nat} {tokens : List Token}
    (h : scanFrom count opened cs = some tokens) : ∀ t ∈ tokens, t.WellNamed := by
  induction count generalizing opened cs tokens with
  | zero =>
    cases cs with
    | nil => simp [← Option.some.inj h]
    | cons c cs => cases h
  | succ count ih =>
    cases cs with
    | nil => simp [← Option.some.inj h]
    | cons c cs =>
      rw [scanFrom] at h
      split at h
      · exact ih h
      · split at h
        · exact ih h
        · obtain ⟨⟨t, rest⟩, hnext, h⟩ := Option.bind_eq_some_iff.1 h
          obtain ⟨opened', -, h⟩ := Option.bind_eq_some_iff.1 h
          obtain ⟨later, hlater, h⟩ := Option.bind_eq_some_iff.1 h
          rw [← Option.some.inj h]
          exact List.forall_mem_cons.2 ⟨wellNamed_next? hnext, ih hlater⟩

theorem wellNamed_of_scan? {text : String} {tokens : List Token} (h : scan? text = some tokens) :
    ∀ t ∈ tokens, t.WellNamed := wellNamed_of_scanFrom h

end Token

/-! ## Parsers -/

open MappedQuery.Document.Parser

/-- Of tokens of a kind, a parser leaves such tokens, and yields a certain result. -/
def Yields {α : Type} (kind : Token → Prop) (p : Parser α) (result : α → Prop) : Prop :=
  ∀ tokens : List Token, (∀ t ∈ tokens, kind t) → ∀ a rest, p.run tokens = some (a, rest) →
    result a ∧ ∀ t ∈ rest, kind t

/-- A parser that leaves tokens of the kind it was given. -/
abbrev Passes {α : Type} (kind : Token → Prop) (p : Parser α) : Prop :=
  Yields kind p fun _ => True

section Combinators

variable {α β : Type} {kind : Token → Prop} {p : Parser α} {f : α → Parser β}
  {result : α → Prop} {result' : β → Prop}

theorem yields_pure {a : α} (ha : result a) : Yields kind (pure a) result := by
  intro tokens htokens b rest h
  cases h
  exact ⟨ha, htokens⟩

theorem yields_failure : Yields kind failure result := nofun

theorem Yields.bind (hp : Yields kind p result) (hf : ∀ a, result a → Yields kind (f a) result') :
    Yields kind (p >>= f) result' := by
  intro tokens htokens b rest h
  obtain ⟨⟨a, left⟩, ha, h⟩ := Option.bind_eq_some_iff.1 h
  obtain ⟨hresult, hleft⟩ := hp tokens htokens a left ha
  exact hf a hresult left hleft b rest h

theorem Yields.mono {more : α → Prop} (hp : Yields kind p result) (h : ∀ a, result a → more a) :
    Yields kind p more := by
  intro tokens htokens a rest ha
  exact (hp tokens htokens a rest ha).imp_left (h a)

theorem Yields.passes (hp : Yields kind p result) : Passes kind p := hp.mono fun _ _ => trivial

theorem Yields.map {g : α → β} (hp : Yields kind p result) (hg : ∀ a, result a → result' (g a)) :
    Yields kind (g <$> p) result' := by
  rw [map_eq_pure_bind]
  exact hp.bind fun a ha => yields_pure (hg a ha)

theorem yields_next : Yields kind next kind := by
  intro tokens htokens t rest h
  cases tokens with
  | nil => cases h
  | cons t' rest' =>
    cases h
    exact List.forall_mem_cons.1 htokens

theorem passes_peek : Passes kind peek := by
  intro tokens htokens a rest h
  cases h
  exact ⟨trivial, htokens⟩

theorem passes_remaining : Passes kind remaining := by
  intro tokens htokens a rest h
  cases h
  exact ⟨trivial, htokens⟩

theorem passes_skip (token : Token) : Passes kind (skip token) := by
  intro tokens htokens a rest h
  cases tokens with
  | nil =>
    cases h
    exact ⟨trivial, htokens⟩
  | cons t tokens =>
    rw [StateT.run, skip] at h
    split at h
    · cases h
      exact ⟨trivial, (List.forall_mem_cons.1 htokens).2⟩
    · cases h
      exact ⟨trivial, htokens⟩

theorem passes_expect (token : Token) : Passes kind (expect token) := by
  refine (passes_skip token).bind fun taken _ => ?_
  cases taken with
  | true => exact yields_pure trivial
  | false => exact yields_failure

theorem yields_name : Yields kind Parser.name fun s => kind (.name s) := by
  refine yields_next.bind fun t ht => ?_
  cases t with
  | name s => exact yields_pure ht
  | _ => exact yields_failure

theorem yields_itemsUntil {closing : Token} (hp : Yields kind p result) (count : Nat) :
    Yields kind (itemsUntil closing p count) fun items => ∀ a ∈ items, result a := by
  induction count with
  | zero => exact (passes_expect closing).bind fun _ _ => yields_pure (List.forall_mem_nil _)
  | succ count ih =>
    refine (passes_skip closing).bind fun taken _ => ?_
    cases taken with
    | true => exact yields_pure (List.forall_mem_nil _)
    | false =>
      refine hp.bind fun a ha => ih.bind fun as has => ?_
      exact yields_pure (List.forall_mem_cons.2 ⟨ha, has⟩)

theorem yields_closedBy {closing : Char} (hp : Yields kind p result) :
    Yields kind (closedBy closing p) fun items => ∀ a ∈ items, result a :=
  passes_remaining.bind fun count _ => yields_itemsUntil hp count

theorem passes_optionalBetween {opening closing : Char} (hp : Passes kind p) :
    Passes kind (optionalBetween opening closing p) := by
  refine passes_peek.bind fun t? _ => ?_
  split
  · refine (passes_expect _).bind fun _ _ => (yields_closedBy hp).bind fun items _ => ?_
    split
    · exact yields_failure
    · exact yields_pure trivial
  · exact yields_pure trivial

theorem passes_itemsAfter {token : Token} (hp : Passes kind p) (count : Nat) :
    Passes kind (itemsAfter token p count) := by
  induction count with
  | zero => exact yields_pure trivial
  | succ count ih =>
    refine (passes_skip token).bind fun taken _ => ?_
    cases taken with
    | true => exact hp.bind fun _ _ => ih.bind fun _ _ => yields_pure trivial
    | false => exact yields_pure trivial

theorem passes_each {mark : Char} (hp : Passes kind p) : Passes kind (each mark p) :=
  passes_remaining.bind fun count _ => passes_itemsAfter hp count

theorem passes_separated {mark : Char} (hp : Passes kind p) : Passes kind (separated mark p) :=
  hp.bind fun _ _ => (passes_each hp).bind fun _ _ => yields_pure trivial

theorem yields_itemsToEnd (hp : Yields kind p result) (count : Nat) :
    Yields kind (itemsToEnd p count) fun items => ∀ a ∈ items, result a := by
  induction count with
  | zero => exact yields_pure (List.forall_mem_nil _)
  | succ count ih =>
    refine passes_peek.bind fun t? _ => ?_
    split
    · exact yields_pure (List.forall_mem_nil _)
    · refine hp.bind fun a ha => ih.bind fun as has => ?_
      exact yields_pure (List.forall_mem_cons.2 ⟨ha, has⟩)

end Combinators

/-! ## The grammar of schema documents -/

section Grammar

variable {kind : Token → Prop}

theorem passes_objectValue {element : Parser Value} (h : Passes kind element) :
    Passes kind (objectValue element) := by
  have hmember : Passes kind (do
      let key ← Parser.name
      punctuator ':'
      pure (key, ← element)) :=
    yields_name.bind fun _ _ => (passes_expect _).bind fun _ _ =>
      h.bind fun _ _ => yields_pure trivial
  exact (yields_closedBy hmember).bind fun _ _ => yields_pure trivial

theorem passes_elim {α : Type} {p? : Option (Parser α)} {f : Parser α → Parser Value}
    (h : ∀ p ∈ p?, Passes kind (f p)) : Passes kind (p?.elim failure f) := by
  cases p? with
  | none => exact yields_failure
  | some p => exact h p rfl

theorem passes_valueAfter {constant : Bool} {element? : Option (Parser Value)}
    (h : ∀ element ∈ element?, Passes kind element) (t : Token) :
    Passes kind (valueAfter constant element? t) := by
  cases t with
  | punctuator c =>
    rw [valueAfter]
    split
    · split
      · exact yields_failure
      · exact yields_name.map fun _ _ => trivial
    · split
      · exact passes_elim fun element helement =>
          (yields_closedBy (h element helement)).map fun _ _ => trivial
      · split
        · exact passes_elim fun element helement => passes_objectValue (h element helement)
        · exact yields_failure
  | spread => exact yields_failure
  | _ => exact yields_pure trivial

theorem passes_value (constant : Bool) (depth : Nat) : Passes kind (value constant depth) := by
  induction depth with
  | zero =>
    exact yields_next.bind fun t _ =>
      passes_valueAfter (fun element helement => absurd helement (Option.not_mem_none element)) t
  | succ depth ih =>
    refine yields_next.bind fun t _ => passes_valueAfter (fun element helement => ?_) t
    rwa [← Option.some.inj helement]

theorem passes_argument : Passes kind argument :=
  yields_name.bind fun _ _ => (passes_expect _).bind fun _ _ =>
    (passes_value false _).bind fun _ _ => yields_pure trivial

theorem passes_directives : Passes kind directives :=
  passes_each (yields_name.bind fun _ _ =>
    (passes_optionalBetween passes_argument).bind fun _ _ => yields_pure trivial)

theorem passes_description : Passes kind description := by
  refine passes_peek.bind fun t? _ => ?_
  split
  · exact yields_next.bind fun _ _ => yields_pure trivial
  · exact yields_pure trivial

/-- What is read as a type wraps nothing twice as nullable, and its name is a token. -/
theorem yields_typeRef (depth : Nat) :
    Yields kind (typeRef depth) fun t => t.OnceNullable ∧ kind (.name t.underlying) := by
  have hmarked {t : TypeRef} (ht : t.isNullable = false ∧ t.OnceNullable)
      (hname : kind (.name t.underlying)) :
      Yields kind (do if ← skip (.punctuator '!') then pure t else pure t.nullable)
        fun t => t.OnceNullable ∧ kind (.name t.underlying) := by
    refine (passes_skip _).bind fun excluded _ => ?_
    cases excluded with
    | true => exact yields_pure ⟨ht.2, hname⟩
    | false => exact yields_pure ⟨ht, hname⟩
  induction depth with
  | zero =>
    rw [typeRef]
    refine yields_next.bind fun t ht => ?_
    split
    · exact hmarked ⟨rfl, trivial⟩ ht
    · exact yields_failure
    · exact yields_failure
  | succ depth ih =>
    rw [typeRef]
    refine yields_next.bind fun t ht => ?_
    split
    · exact hmarked ⟨rfl, trivial⟩ ht
    · exact ih.bind fun item hitem => (passes_expect _).bind fun _ _ =>
        hmarked ⟨rfl, hitem.1⟩ hitem.2
    · exact yields_failure

theorem passes_typeRef (depth : Nat) : Passes kind (typeRef depth) := (yields_typeRef depth).passes

theorem passes_inputDefinition : Passes kind inputDefinition := by
  refine passes_description.bind fun _ _ => yields_name.bind fun _ _ =>
    (passes_expect _).bind fun _ _ => (passes_typeRef _).bind fun _ _ =>
      (passes_skip _).bind fun hasDefault _ => ?_
  have hrest (i : InputDefinition) : Passes kind (do let _ ← directives; pure i) :=
    passes_directives.bind fun _ _ => yields_pure trivial
  have hvalue : Passes kind (some <$> value true Token.deepest) :=
    (passes_value true _).map fun _ _ => trivial
  cases hasDefault with
  | true => exact hvalue.bind fun _ _ => hrest _
  | false => exact hrest _

theorem passes_fieldDefinition : Passes kind fieldDefinition :=
  passes_description.bind fun _ _ => yields_name.bind fun _ _ =>
    (passes_optionalBetween passes_inputDefinition).bind fun _ _ =>
      (passes_expect _).bind fun _ _ => (passes_typeRef _).bind fun _ _ =>
        passes_directives.bind fun _ _ => yields_pure trivial

/-- Names with a mark between them and perhaps before them, after a token that may be missing. -/
theorem passes_listed {token : Token} {mark : Char} :
    Passes kind (do
      if ← skip token then
        let _ ← skip (.punctuator mark)
        separated mark Parser.name
      else pure []) := by
  refine (passes_skip token).bind fun given _ => ?_
  cases given with
  | true => exact (passes_skip _).bind fun _ _ => passes_separated yields_name.passes
  | false => exact yields_pure trivial

theorem passes_implementedInterfaces : Passes kind implementedInterfaces := passes_listed

theorem passes_unionMembers : Passes kind unionMembers := passes_listed

theorem passes_enumValue : Passes kind enumValue :=
  passes_description.bind fun _ _ => yields_name.bind fun _ _ =>
    passes_directives.bind fun _ _ => yields_pure trivial

/-- A type has the name that its definition starts with. -/
theorem yields_typeDefinition (word : String) :
    Yields kind (typeDefinition word) fun d => kind (.name d.1.name) := by
  unfold typeDefinition
  split
  · exact yields_name.bind fun _ hname => passes_directives.bind fun _ _ => yields_pure hname
  · exact yields_name.bind fun _ hname => passes_implementedInterfaces.bind fun _ _ =>
      passes_directives.bind fun _ _ =>
        (passes_optionalBetween passes_fieldDefinition).bind fun _ _ => yields_pure hname
  · exact yields_name.bind fun _ hname => passes_implementedInterfaces.bind fun _ _ =>
      passes_directives.bind fun _ _ =>
        (passes_optionalBetween passes_fieldDefinition).bind fun _ _ => yields_pure hname
  · exact yields_name.bind fun _ hname => passes_directives.bind fun _ _ =>
      passes_unionMembers.bind fun _ _ => yields_pure hname
  · exact yields_name.bind fun _ hname => passes_directives.bind fun _ _ =>
      (passes_optionalBetween passes_enumValue).bind fun _ _ => yields_pure hname
  · exact yields_name.bind fun _ hname => passes_directives.bind fun _ _ =>
      (passes_optionalBetween passes_inputDefinition).bind fun _ _ => yields_pure hname
  · exact yields_failure

theorem passes_rootType : Passes kind rootType := by
  refine yields_name.bind fun operation _ => ?_
  split
  · exact (passes_expect _).bind fun _ _ => yields_name.bind fun _ _ => yields_pure trivial
  · exact yields_failure

/-- A declaration of a type names it by a token. -/
def NamedBy (kind : Token → Prop) (declaration : Declaration) : Prop :=
  ∀ d, declaration = .type d → kind (.name d.name)

theorem yields_rootTypes : Yields kind rootTypes (NamedBy kind) := by
  refine passes_directives.bind fun _ _ => (passes_expect _).bind fun _ _ =>
    (yields_closedBy passes_rootType).bind fun roots _ => ?_
  split
  · exact yields_pure nofun
  · exact yields_failure

theorem passes_directiveLocation : Passes kind directiveLocation := by
  refine yields_name.bind fun _ _ => ?_
  split
  · exact yields_pure trivial
  · exact yields_failure

theorem yields_directiveDefinition : Yields kind directiveDefinition (NamedBy kind) := by
  refine (passes_expect _).bind fun _ _ => yields_name.bind fun _ _ =>
    (passes_optionalBetween passes_inputDefinition).bind fun _ _ => (passes_skip _).bind fun _ _ =>
      (passes_expect _).bind fun _ _ => (passes_skip _).bind fun barred _ =>
        passes_peek.bind fun t? _ => ?_
  split
  · exact (passes_separated passes_directiveLocation).bind fun _ _ => yields_pure nofun
  · split
    · exact yields_failure
    · exact yields_pure nofun

theorem yields_type (word : String) :
    Yields kind (do let (definition, _) ← typeDefinition word; pure (.type definition))
      (NamedBy kind) := by
  refine (yields_typeDefinition word).bind fun d hd => yields_pure ?_
  rintro _ ⟨⟩
  exact hd

theorem yields_declaration : Yields kind declaration (NamedBy kind) := by
  refine passes_peek.bind fun t? _ => ?_
  split
  · refine passes_description.bind fun _ _ => yields_name.bind fun word _ => ?_
    split
    · exact yields_directiveDefinition
    · exact yields_type word
  · refine yields_name.bind fun word _ => ?_
    split
    · exact yields_rootTypes
    · refine yields_name.bind fun word _ =>
        (yields_typeDefinition word).bind fun (_, extending) _ => ?_
      cases extending with
      | true => exact yields_pure nofun
      | false => exact yields_failure
    · exact yields_directiveDefinition
    · exact yields_type word

/-- Every type that a document declares has a proper name. -/
theorem isName_of_parse? {text : String} {declarations : List Declaration}
    (h : Declaration.parse? text = some declarations) {d : TypeDefinition}
    (hd : .type d ∈ declarations) : Value.isName d.name = true := by
  obtain ⟨tokens, htokens, h⟩ := Option.bind_eq_some_iff.1 h
  obtain ⟨⟨items, rest⟩, hitems, h⟩ := Option.bind_eq_some_iff.1 h
  have hnamed : ∀ item ∈ items, NamedBy Token.WellNamed item :=
    (yields_itemsToEnd yields_declaration _ tokens (Token.wellNamed_of_scan? htokens) _ _ hitems).1
  dsimp only at h
  split at h
  · cases h
  · obtain rfl := Option.some.inj h
    exact hnamed _ hd d rfl

end Grammar

end Document

/-! ## Schemas -/

namespace Schema

/-- A declaration adds no type but its own. -/
theorem mem_of_declare {types types' : List TypeDefinition} {d t : TypeDefinition}
    (h : declare types d = .ok types') (ht : t ∈ types') : t ∈ types ∨ t = d := by
  unfold declare at h
  split at h
  · split at h
    · obtain rfl := Except.ok.inj h
      obtain ⟨t', ht', rfl⟩ := List.mem_map.1 ht
      split
      · exact .inr rfl
      · exact .inl ht'
    · cases h
  · obtain rfl := Except.ok.inj h
    exact (List.mem_append.1 ht).imp_right List.mem_singleton.1

/-- All types of a schema that is accepted have proper names. -/
theorem isName_of_parse {text : String} {s : Schema} (h : parse text = .ok s) {name : String}
    (hname : s.hasType name = true) : Value.isName name = true := by
  have hnames : ∀ t ∈ s.types, Value.isName t.name = true := by
    refine types_induction (P := fun types => ∀ t ∈ types, Value.isName t.name = true) h
      (by decide) fun declarations hparse d hd types types' htypes hdeclare t ht => ?_
    rcases mem_of_declare hdeclare ht with hmem | rfl
    · exact htypes t hmem
    · exact Document.isName_of_parse? hparse hd
  obtain ⟨t, ht⟩ := Option.isSome_iff_exists.1 hname
  rw [← name_of_find? ht]
  exact hnames t (List.mem_of_find?_eq_some ht)

end Schema

end MappedQuery
