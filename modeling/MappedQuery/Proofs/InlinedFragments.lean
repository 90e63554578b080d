import Mathlib.Data.List.Forall2
import MappedQuery.Engine
import MappedQuery.Proofs.FragmentCycles

/-!
# Spreads and inline fragments

A spread may be replaced by an inline fragment with the selections of the fragment that it spreads,
and an inline fragment may be moved into a new fragment, as often as one likes. In a request without
cycles of fragments no spread is ever refused for a fragment that encloses it. What the spreads come
to is then the only solution of the equations that the fragments say (`Request.Solves`), and both
ways of rewriting a request take a solution of its equations to one of those of the new request.
-/
namespace MappedQuery.Document

/-! ## Rewriting requests -/

/-- Selections in which some are replaced by others, at any depth. -/
inductive Rewritten (replaces : Selection → Selection → Prop) :
    List Selection → List Selection → Prop where
  | nil : Rewritten replaces [] []
  | kept {s : Selection} {rest rest' : List Selection} : Rewritten replaces rest rest' →
      Rewritten replaces (s :: rest) (s :: rest')
  | field {alias? : Option String} {name : String} {arguments : List (String × Value)}
      {directives : List Directive} {below below' rest rest' : List Selection} :
      Rewritten replaces below below' → Rewritten replaces rest rest' →
      Rewritten replaces (.field alias? name arguments directives below :: rest)
        (.field alias? name arguments directives below' :: rest')
  | inline {type? : Option String} {directives : List Directive}
      {inner inner' rest rest' : List Selection} :
      Rewritten replaces inner inner' → Rewritten replaces rest rest' →
      Rewritten replaces (.inline type? directives inner :: rest)
        (.inline type? directives inner' :: rest')
  | replaced {s s' : Selection} {rest rest' : List Selection} : replaces s s' →
      Rewritten replaces rest rest' → Rewritten replaces (s :: rest) (s' :: rest')

/-- An operation in which some selections are replaced. -/
inductive Operation.Rewritten (replaces : Selection → Selection → Prop) (o : Operation) :
    Operation → Prop where
  | mk {ss : List Selection} : Document.Rewritten replaces o.selections ss →
      Rewritten replaces o { o with selections := ss }

/-- A fragment in which some selections are replaced. -/
inductive Fragment.Rewritten (replaces : Selection → Selection → Prop) (f : Fragment) :
    Fragment → Prop where
  | mk {ss : List Selection} : Document.Rewritten replaces f.selections ss →
      Rewritten replaces f { f with selections := ss }

/-- An inline fragment that is moved into a fragment, and the spread in its place. -/
inductive Fragment.Names (f : Fragment) : Selection → Selection → Prop where
  | mk (directives : List Directive) :
      Names f (.inline (some f.type) directives f.selections) (.spread f.name directives)

namespace Request

/-- A request in which some selections are replaced. -/
structure Rewritten (replaces : Selection → Selection → Prop) (r r' : Request) : Prop where
  operations : List.Forall₂ (Operation.Rewritten replaces) r.operations r'.operations
  fragments : List.Forall₂ (Fragment.Rewritten replaces) r.fragments r'.fragments

/-- A spread, and the inline fragment that says the same. -/
inductive Inlines (r : Request) : Selection → Selection → Prop where
  | mk {name : String} {f : Fragment} (directives : List Directive) :
      r.fragment? name = some f →
      Inlines r (.spread name directives) (.inline (some f.type) directives f.selections)

/-- No fragment has the name, and none is spread by it. -/
structure IsNew (r : Request) (name : String) : Prop where
  fragment : r.fragment? name = none
  operations : ∀ o ∈ r.operations, someSpread name o.selections = false
  fragments : ∀ f ∈ r.fragments, someSpread name f.selections = false

/-- Inline fragments are moved into a fragment, declared between others, under a name that is new in
the request and in the fragment. -/
structure Moves (r r' : Request) (f : Fragment) (front back : List Fragment) : Prop where
  isNew : r.IsNew f.name
  isFree : someSpread f.name f.selections = false
  rewritten : r.Rewritten f.Names r'
  fragments : r'.fragments = front ++ back

/-- Spreads are replaced by inline fragments, or inline fragments are moved into a new fragment that
is declared anywhere among the others. -/
inductive Rewrites (r : Request) : Request → Prop where
  | inlined {r' : Request} : r.Rewritten r.Inlines r' → Rewrites r r'
  | named {r' : Request} {f : Fragment} {front back : List Fragment} :
      r.Moves r' f front back → Rewrites r (r'.named front back f)

/-- The selections of a fragment spread another, whether or not the spread is taken. -/
def Mentions (r : Request) (a b : String) : Prop :=
  ∃ f, r.fragment? a = some f ∧ someSpread b f.selections = true

/-- No fragment leads back to itself. -/
def IsAcyclic (r : Request) : Prop := ∀ name, ¬ Relation.TransGen r.Mentions name name

/-- What spreads come to satisfies the equations of the fragments: a fragment comes to its own
selections on its type. -/
def Solves (r : Request) (vs : Variables) (meaning : String → Except RequestFault Query) : Prop :=
  ∀ name, meaning name =
    match r.fragment? name with
    | none => .error (.unknownFragment name)
    | some f => do pure (.narrow f.type (.grouped (← selectionQueries vs meaning f.selections)))

end Request

/-! ## Spreads that are taken -/

section Taken

variable {vs : Variables} {ss : List Selection} {s : Selection} {name : String}

theorem someSpread_iff : someSpread name ss = true ↔ ∃ s ∈ ss, s.spreads name = true := by
  induction ss with
  | nil => simp [someSpread]
  | cons s rest ih => simp [someSpread, ih]

theorem Within.someSpread (h : Within vs ss s) (hs : s.spreads name = true) :
    someSpread name ss = true := by
  induction h with
  | here hmem => exact someSpread_iff.2 ⟨_, hmem, hs⟩
  | @inside t u _ _ hu ih =>
    apply ih
    have hinner : Document.someSpread name t.inner = true := someSpread_iff.2 ⟨_, hu, hs⟩
    cases t with
    | field => exact hinner
    | spread => cases hu
    | inline => exact hinner

theorem Spreads.someSpread (h : Spreads vs ss name) : someSpread name ss = true := by
  obtain ⟨directives, hwithin, -⟩ := h
  exact hwithin.someSpread (decide_eq_true rfl)

end Taken

/-! ## Requests without cycles -/

namespace Request

section Acyclic

variable {r : Request} {vs : Variables} {enclosing : List String} {name : String}
  {result : Except RequestFault Query} {meaning : String → Except RequestFault Query}

theorem mem_of_fragment? {f : Fragment} (hf : r.fragment? name = some f) : f ∈ r.fragments :=
  List.mem_reverse.1 (List.mem_of_find?_eq_some hf)

/-- A request has no cycles if spreads lead to fragments of a lower rank. -/
theorem isAcyclic_of_rank (rank : String → Nat) (h : ∀ f ∈ r.fragments, ∀ name,
    someSpread name f.selections = true → rank name < rank f.name) : r.IsAcyclic := by
  have hstep {a b : String} (hab : r.Mentions a b) : rank b < rank a := by
    obtain ⟨f, hf, hspread⟩ := hab
    obtain rfl : f.name = a := by simpa using List.find?_some hf
    exact h f (mem_of_fragment? hf) b hspread
  have hpath {a b : String} (hab : Relation.TransGen r.Mentions a b) : rank b < rank a := by
    induction hab with
    | single hab => exact hstep hab
    | tail _ hbc ih => exact (hstep hbc).trans ih
  exact fun name hcycle => lt_irrefl _ (hpath hcycle)

theorem mentions_of_spreads {f : Fragment} {inner : String} (hf : r.fragment? name = some f)
    (hinner : Spreads vs f.selections inner) : r.Mentions name inner :=
  ⟨f, hf, hinner.someSpread⟩

/-- The fragments that enclose a spread lead to what it spreads. -/
theorem leads_of_enclosing {f : Fragment} {inner : String} (hf : r.fragment? name = some f)
    (hinner : Spreads vs f.selections inner)
    (hleads : ∀ outer ∈ enclosing, Relation.TransGen r.Mentions outer name) :
    ∀ outer ∈ name :: enclosing, Relation.TransGen r.Mentions outer inner := by
  have hstep := mentions_of_spreads hf hinner
  intro outer houter
  rcases List.mem_cons.1 houter with rfl | houter
  · exact .single hstep
  · exact (hleads outer houter).tail hstep

/-- Without cycles it makes no difference by which fragments a spread is enclosed. -/
theorem Enters.of_acyclic (hacyclic : r.IsAcyclic) {enclosing' : List String}
    (h : r.Enters vs enclosing name result)
    (hleads : ∀ outer ∈ enclosing, Relation.TransGen r.Mentions outer name)
    (hleads' : ∀ outer ∈ enclosing', Relation.TransGen r.Mentions outer name) :
    r.Enters vs enclosing' name result := by
  induction h generalizing enclosing' with
  | unknown hf => exact .unknown hf
  | again _ hmem => exact absurd (hleads _ hmem) (hacyclic _)
  | inside hf _ _ ih =>
    refine .inside hf (fun hmem => hacyclic _ (hleads' _ hmem)) fun inner hinner => ?_
    exact ih inner hinner (leads_of_enclosing hf hinner hleads)
      (leads_of_enclosing hf hinner hleads')

/-- Without cycles a spread comes to what a solution says. -/
theorem Enters.eq_meaning (hacyclic : r.IsAcyclic) (hsolves : r.Solves vs meaning)
    (h : r.Enters vs enclosing name result)
    (hleads : ∀ outer ∈ enclosing, Relation.TransGen r.Mentions outer name) :
    result = meaning name := by
  induction h with
  | unknown hf => rw [hsolves, hf]
  | again _ hmem => exact absurd (hleads _ hmem) (hacyclic _)
  | inside hf _ _ ih =>
    rw [hsolves, hf]
    dsimp only
    rw [selectionQueries_eq_of_spreads fun inner hinner =>
      ih inner hinner (leads_of_enclosing hf hinner hleads)]

/-- Reading with as many levels as there are fragments. -/
def reading (r : Request) (vs : Variables) : String → Except RequestFault Query :=
  r.expand vs r.fragments.length []

theorem unentered_nil_le (r : Request) : r.unentered [] ≤ r.fragments.length :=
  List.countP_le_length

/-- Without cycles reading is a solution. -/
theorem IsAcyclic.solves_reading (hacyclic : r.IsAcyclic) (vs : Variables) :
    r.Solves vs (r.reading vs) := by
  intro name
  cases hf : r.fragment? name with
  | none => exact expand_of_unknown hf
  | some f =>
    obtain ⟨levels, -, henough, hexpand⟩ : ∃ levels, r.fragments.length = levels + 1 ∧
        r.unentered [name] ≤ levels ∧ r.reading vs name = (do
          pure (.narrow f.type (.grouped
            (← selectionQueries vs (r.expand vs levels [name]) f.selections)))) :=
      expand_of_enough r.unentered_nil_le hf List.not_mem_nil
    refine hexpand.trans ?_
    dsimp only
    rw [selectionQueries_eq_of_spreads fun inner hinner => ?_]
    have hentered : r.Enters vs [name] inner (r.expand vs levels [name] inner) :=
      enters_expand henough
    have hfree : r.Enters vs [] inner (r.expand vs levels [name] inner) :=
      hentered.of_acyclic hacyclic (leads_of_enclosing hf hinner (by simp)) (by simp)
    exact (hfree.expand_eq r.unentered_nil_le).symm

/-- It is the only one. -/
theorem Solves.reading_eq (hsolves : r.Solves vs meaning) (hacyclic : r.IsAcyclic)
    (name : String) : r.reading vs name = meaning name :=
  (enters_expand r.unentered_nil_le).eq_meaning hacyclic hsolves (by simp)

end Acyclic

end Request

/-! ## What rewriting keeps -/

section Rewriting

variable {replaces : Selection → Selection → Prop} {r r' : Request} {vs : Variables}
  {ss ss' : List Selection} {expand expand' : String → Except RequestFault Query}

theorem someSpread_cons {name : String} {s : Selection} {rest : List Selection} :
    someSpread name (s :: rest) = true ↔ s.spreads name = true ∨ someSpread name rest = true := by
  rw [someSpread, Bool.or_eq_true]

theorem Rewritten.refl (ss : List Selection) : Rewritten replaces ss ss := by
  induction ss with
  | nil => exact .nil
  | cons s rest ih => exact .kept ih

theorem fragments_kept : ∀ fs : List Fragment,
    List.Forall₂ (Fragment.Rewritten replaces) fs fs
  | [] => .nil
  | f :: rest => .cons (.mk (Document.Rewritten.refl f.selections)) (fragments_kept rest)

/-- Rewritten selections are read alike if what is replaced is. -/
theorem Rewritten.selectionQueries_eq (h : Rewritten replaces ss ss')
    (hreplaces : ∀ s s', replaces s s' → s.toQuery? vs expand = s'.toQuery? vs expand')
    (hexpand : ∀ name, someSpread name ss = true → expand name = expand' name) :
    selectionQueries vs expand ss = selectionQueries vs expand' ss' := by
  induction h with
  | nil => rfl
  | @kept s rest rest' _ ih =>
    have hs : s.toQuery? vs expand = s.toQuery? vs expand' :=
      toQuery_eq_of_spreads fun name hname => hexpand name <| someSpread_cons.2 <| .inl <| by
        rw [← someSpread_singleton]
        exact hname.someSpread
    rw [selectionQueries, selectionQueries, hs,
      ih fun name hname => hexpand name (someSpread_cons.2 (.inr hname))]
  | field _ _ ihBelow ih =>
    rw [selectionQueries, selectionQueries, Selection.toQuery?, Selection.toQuery?,
      ihBelow fun name hname => hexpand name (someSpread_cons.2 (.inl hname)),
      ih fun name hname => hexpand name (someSpread_cons.2 (.inr hname))]
  | inline _ _ ihInner ih =>
    rw [selectionQueries, selectionQueries, Selection.toQuery?, Selection.toQuery?,
      ihInner fun name hname => hexpand name (someSpread_cons.2 (.inl hname)),
      ih fun name hname => hexpand name (someSpread_cons.2 (.inr hname))]
  | replaced hs _ ih =>
    rw [selectionQueries, selectionQueries, hreplaces _ _ hs,
      ih fun name hname => hexpand name (someSpread_cons.2 (.inr hname))]

/-- A fragment is spread in selections, or by what is put in the place of one of them. -/
def SpreadOrPutIn (replaces : Selection → Selection → Prop) (ss : List Selection)
    (name : String) : Prop :=
  someSpread name ss = true ∨ ∃ s s', replaces s s' ∧ s'.spreads name = true ∧
    ∀ other, s.spreads other = true → someSpread other ss = true

theorem SpreadOrPutIn.mono {name : String} (h : SpreadOrPutIn replaces ss name)
    (hsub : ∀ other, someSpread other ss = true → someSpread other ss' = true) :
    SpreadOrPutIn replaces ss' name := by
  rcases h with hname | ⟨s, s', hs, hs', hall⟩
  · exact .inl (hsub name hname)
  · exact .inr ⟨s, s', hs, hs', fun other ho => hsub other (hall other ho)⟩

theorem Rewritten.spreadOrPutIn (h : Rewritten replaces ss ss') {name : String}
    (hname : someSpread name ss' = true) : SpreadOrPutIn replaces ss name := by
  induction h with
  | nil => exact .inl hname
  | kept _ ih =>
    rcases someSpread_cons.1 hname with hs | hrest
    · exact .inl (someSpread_cons.2 (.inl hs))
    · exact (ih hrest).mono fun _ ho => someSpread_cons.2 (.inr ho)
  | field _ _ ihInner ih | inline _ _ ihInner ih =>
    rcases someSpread_cons.1 hname with hinner | hrest
    · exact (ihInner hinner).mono fun _ ho => someSpread_cons.2 (.inl ho)
    · exact (ih hrest).mono fun _ ho => someSpread_cons.2 (.inr ho)
  | @replaced s s' _ _ hs _ ih =>
    rcases someSpread_cons.1 hname with hs' | hrest
    · exact .inr ⟨s, s', hs, hs', fun _ ho => someSpread_cons.2 (.inl ho)⟩
    · exact (ih hrest).mono fun _ ho => someSpread_cons.2 (.inr ho)

theorem find?_rel {α β : Type} {R : α → β → Prop} {p : α → Bool} {q : β → Bool}
    (hsame : ∀ a b, R a b → p a = q b) {as : List α} {bs : List β} (h : List.Forall₂ R as bs) :
    Option.Rel R (as.find? p) (bs.find? q) := by
  induction h with
  | nil => exact .none
  | @cons a b as bs hab _ ih =>
    rw [List.find?_cons, List.find?_cons, ← hsame a b hab]
    cases p a with
    | true => exact .some hab
    | false => exact ih

theorem fragment?_rewritten (h : r.Rewritten replaces r') (name : String) :
    Option.Rel (Fragment.Rewritten replaces) (r.fragment? name) (r'.fragment? name) := by
  refine find?_rel ?_ (List.forall₂_reverse_iff.2 h.fragments)
  rintro f _ ⟨-⟩
  rfl

/-- The same operation is chosen, or choosing fails alike. -/
theorem operation_rewritten (h : r.Rewritten replaces r') (operationName? : Option String) :
    (∃ fault, r.operation operationName? = .error fault ∧
        r'.operation operationName? = .error fault) ∨
      ∃ o o', r.operation operationName? = .ok o ∧ r'.operation operationName? = .ok o' ∧
        Operation.Rewritten replaces o o' := by
  have hoperations := h.operations
  unfold Request.operation
  cases operationName? with
  | some name =>
    have hfind : Option.Rel (Operation.Rewritten replaces)
        (r.operations.find? (·.name? = some name)) (r'.operations.find? (·.name? = some name)) := by
      refine find?_rel ?_ hoperations
      rintro o _ ⟨-⟩
      rfl
    dsimp only
    generalize r.operations.find? (·.name? = some name) = x at hfind
    generalize r'.operations.find? (·.name? = some name) = y at hfind
    cases hfind with
    | none => exact .inl ⟨_, rfl, rfl⟩
    | some ho => exact .inr ⟨_, _, rfl, rfl, ho⟩
  | none =>
    generalize r.operations = os at hoperations
    generalize r'.operations = os' at hoperations
    cases hoperations with
    | nil => exact .inl ⟨_, rfl, rfl⟩
    | cons ho hrest =>
      cases hrest with
      | nil => exact .inr ⟨_, _, rfl, rfl, ho⟩
      | cons => exact .inl ⟨_, rfl, rfl⟩

/-- A request is read as it was if the selections of its operations are. -/
theorem toQuery_rewritten {r'' : Request} (h : r.Rewritten replaces r')
    (hsame : r''.operations = r'.operations)
    (hread : ∀ vs, ∀ o ∈ r.operations, ∀ ss, Rewritten replaces o.selections ss →
      selectionQueries vs (r.reading vs) o.selections = selectionQueries vs (r''.reading vs) ss)
    (operationName? : Option String) (variables? : Option Json) :
    r''.toQuery operationName? variables? = r.toQuery operationName? variables? := by
  have hoperation : r''.operation operationName? = r'.operation operationName? := by
    unfold Request.operation
    rw [hsame]
  rw [Request.toQuery, Request.toQuery, hoperation]
  rcases operation_rewritten h operationName? with
    ⟨fault, hr, hr'⟩ | ⟨o, _, hr, hr', ⟨hss⟩⟩
  · rw [hr, hr']
    rfl
  · rw [hr, hr', ok_bind, ok_bind]
    dsimp only
    cases o.kind with
    | mutation | subscription => rfl
    | query =>
      refine bind_congr fun vs => ?_
      exact congrArg (fun x => x >>= fun qs => pure (Query.grouped qs))
        (hread vs o (mem_of_operation hr) _ hss).symm

end Rewriting

/-! ## Inline fragments for spreads -/

section Inlining

variable {r r' : Request} {vs : Variables} {meaning : String → Except RequestFault Query}

/-- A spread comes to what the inline fragment in its place does. -/
theorem toQuery_inlines (hsolves : r.Solves vs meaning) {s s' : Selection} (h : r.Inlines s s') :
    s.toQuery? vs meaning = s'.toQuery? vs meaning := by
  cases h with
  | @mk name f directives hf =>
    have hname := hsolves name
    rw [hf] at hname
    rw [Selection.toQuery?, Selection.toQuery?, hname]
    dsimp only
    refine bind_congr fun included => ?_
    cases included with
    | false => rfl
    | true => cases selectionQueries vs meaning f.selections <;> rfl

theorem Request.Solves.inlined (hsolves : r.Solves vs meaning) (h : r.Rewritten r.Inlines r') :
    r'.Solves vs meaning := by
  intro name
  have hfragment := fragment?_rewritten h name
  have hname := hsolves name
  generalize r.fragment? name = f? at hfragment hname
  generalize r'.fragment? name = f?' at hfragment
  cases hfragment with
  | none => exact hname
  | some hf =>
    obtain ⟨hss⟩ := hf
    rw [hname]
    dsimp only
    rw [hss.selectionQueries_eq (fun _ _ => toQuery_inlines hsolves) fun _ _ => rfl]

/-- What a fragment mentions after the replacement, it led to before. -/
theorem leads_of_mentions_inlined (h : r.Rewritten r.Inlines r') {a b : String}
    (hab : r'.Mentions a b) : Relation.TransGen r.Mentions a b := by
  obtain ⟨f', hf', hspread⟩ := hab
  have hfragment := fragment?_rewritten h a
  rw [hf'] at hfragment
  generalize hf : r.fragment? a = f? at hfragment
  obtain ⟨⟨hss⟩⟩ := hfragment
  rcases hss.spreadOrPutIn hspread with hsame | ⟨_, _, ⟨directives, hg⟩, hinner, hall⟩
  · exact .single ⟨_, hf, hsame⟩
  · exact .head ⟨_, hf, hall _ (decide_eq_true rfl)⟩ (.single ⟨_, hg, hinner⟩)

theorem Request.IsAcyclic.inlined (hacyclic : r.IsAcyclic) (h : r.Rewritten r.Inlines r') :
    r'.IsAcyclic :=
  fun name hcycle => hacyclic name <|
    Relation.TransGen.closed (fun _ _ => leads_of_mentions_inlined h) name name hcycle

/-- A request is read alike with inline fragments in the place of spreads. -/
theorem toQuery_inlined (hacyclic : r.IsAcyclic) (h : r.Rewritten r.Inlines r')
    (operationName? : Option String) (variables? : Option Json) :
    r'.toQuery operationName? variables? = r.toQuery operationName? variables? := by
  refine toQuery_rewritten h rfl (fun vs o _ ss hss => ?_) operationName? variables?
  have hsolves := hacyclic.solves_reading vs
  have hreading : r'.reading vs = r.reading vs :=
    funext ((hsolves.inlined h).reading_eq (hacyclic.inlined h))
  rw [hreading]
  exact hss.selectionQueries_eq (fun _ _ => toQuery_inlines hsolves) fun _ _ => rfl

end Inlining

/-! ## Fragments for inline fragments -/

section Naming

variable {r r' : Request} {vs : Variables} {meaning : String → Except RequestFault Query}
  {f : Fragment} {front back : List Fragment}

/-- What spreads come to when there is one more fragment. -/
def Fragment.extend (f : Fragment) (vs : Variables) (meaning : String → Except RequestFault Query)
    (name : String) : Except RequestFault Query :=
  if name = f.name then do
    pure (.narrow f.type (.grouped (← selectionQueries vs meaning f.selections)))
  else meaning name

theorem Fragment.extend_of_ne {name : String} (hname : name ≠ f.name) :
    f.extend vs meaning name = meaning name := if_neg hname

/-- The selections that are moved come to what the spread in their place does. -/
theorem toQuery_names {s s' : Selection} (h : f.Names s s') :
    s.toQuery? vs meaning = s'.toQuery? vs (f.extend vs meaning) := by
  obtain ⟨directives⟩ := h
  rw [Selection.toQuery?, Selection.toQuery?, Fragment.extend, if_pos rfl]
  refine bind_congr fun included => ?_
  cases included with
  | false => rfl
  | true => cases selectionQueries vs meaning f.selections <;> rfl

theorem Rewritten.selectionQueries_named {ss ss' : List Selection} (h : Rewritten f.Names ss ss')
    (hfree : someSpread f.name ss = false) :
    selectionQueries vs meaning ss = selectionQueries vs (f.extend vs meaning) ss' := by
  refine h.selectionQueries_eq (fun _ _ => toQuery_names) fun name hname => ?_
  refine (Fragment.extend_of_ne fun heq => ?_).symm
  rw [heq, hfree] at hname
  cases hname

namespace Request.Moves

theorem fragment?_named (h : r.Moves r' f front back) (name : String) :
    (r'.named front back f).fragment? name =
      if name = f.name then some f else r'.fragment? name := by
  have hnone := fragment?_rewritten h.rewritten f.name
  rw [h.isNew.fragment] at hnone
  refine Document.fragment?_named h.fragments ?_ name
  cases hf : r'.fragment? f.name with
  | none => rfl
  | some g =>
    rw [hf] at hnone
    cases hnone

theorem solves (h : r.Moves r' f front back) (hsolves : r.Solves vs meaning) :
    (r'.named front back f).Solves vs (f.extend vs meaning) := by
  intro name
  rw [h.fragment?_named]
  by_cases hname : name = f.name
  · rw [if_pos hname, Fragment.extend, if_pos hname]
    dsimp only
    rw [selectionQueries_congr (fun other hother => (Fragment.extend_of_ne hother).symm) h.isFree]
  · rw [if_neg hname, Fragment.extend_of_ne hname, hsolves]
    have hfragment := fragment?_rewritten h.rewritten name
    generalize hg : r.fragment? name = g? at hfragment
    generalize r'.fragment? name = g?' at hfragment
    cases hfragment with
    | none => rfl
    | some hrewritten =>
      obtain ⟨hss⟩ := hrewritten
      dsimp only
      rw [hss.selectionQueries_named (h.isNew.fragments _ (mem_of_fragment? hg))]

/-- What is mentioned after the move was mentioned before, or it is the new fragment and all that
this one mentions was. -/
theorem mentions_cases (h : r.Moves r' f front back) {a b : String}
    (hab : (r'.named front back f).Mentions a b) (ha : a ≠ f.name) :
    b ≠ f.name ∧ r.Mentions a b ∨
      b = f.name ∧ ∀ c, someSpread c f.selections = true → r.Mentions a c := by
  obtain ⟨g', hg', hspread⟩ := hab
  rw [h.fragment?_named, if_neg ha] at hg'
  have hfragment := fragment?_rewritten h.rewritten a
  rw [hg'] at hfragment
  generalize hg : r.fragment? a = g? at hfragment
  obtain ⟨⟨hss⟩⟩ := hfragment
  rcases hss.spreadOrPutIn hspread with hsame | ⟨_, _, ⟨directives⟩, hb, hall⟩
  · refine .inl ⟨?_, _, hg, hsame⟩
    rintro rfl
    rw [h.isNew.fragments _ (mem_of_fragment? hg)] at hsame
    cases hsame
  · exact .inr ⟨(of_decide_eq_true hb).symm, fun c hc => ⟨_, hg, hall c hc⟩⟩

theorem mentions_of_new (h : r.Moves r' f front back) {b : String}
    (hb : (r'.named front back f).Mentions f.name b) :
    b ≠ f.name ∧ someSpread b f.selections = true := by
  obtain ⟨g, hg, hspread⟩ := hb
  rw [h.fragment?_named, if_pos rfl] at hg
  cases hg
  refine ⟨?_, hspread⟩
  rintro rfl
  rw [h.isFree] at hspread
  cases hspread

/-- Where the fragments lead after the move, they led before, the new fragment apart, and to all
that this one mentions. -/
theorem leads_cases (h : r.Moves r' f front back) {a b : String} (ha : a ≠ f.name)
    (hab : Relation.TransGen (r'.named front back f).Mentions a b) :
    b ≠ f.name ∧ Relation.TransGen r.Mentions a b ∨
      b = f.name ∧ ∀ c, someSpread c f.selections = true → Relation.TransGen r.Mentions a c := by
  induction hab with
  | single hab =>
    rcases h.mentions_cases hab ha with ⟨hb, hab⟩ | ⟨hb, hall⟩
    · exact .inl ⟨hb, .single hab⟩
    · exact .inr ⟨hb, fun c hc => .single (hall c hc)⟩
  | tail _ hbc ih =>
    rcases ih with ⟨hb, hab⟩ | ⟨rfl, hall⟩
    · rcases h.mentions_cases hbc hb with ⟨hc, hbc⟩ | ⟨hc, hmentions⟩
      · exact .inl ⟨hc, hab.tail hbc⟩
      · exact .inr ⟨hc, fun d hd => hab.tail (hmentions d hd)⟩
    · obtain ⟨hc, hspread⟩ := h.mentions_of_new hbc
      exact .inl ⟨hc, hall _ hspread⟩

theorem isAcyclic (h : r.Moves r' f front back) (hacyclic : r.IsAcyclic) :
    (r'.named front back f).IsAcyclic := by
  intro name hcycle
  by_cases hname : name = f.name
  · subst hname
    -- the cycle goes through a fragment that the new one mentions
    obtain ⟨second, hfirst, hrest⟩ := Relation.TransGen.head'_iff.1 hcycle
    obtain ⟨hsecond, hspread⟩ := h.mentions_of_new hfirst
    rcases Relation.reflTransGen_iff_eq_or_transGen.1 hrest with heq | hrest
    · exact hsecond heq.symm
    · rcases h.leads_cases hsecond hrest with ⟨hne, -⟩ | ⟨-, hall⟩
      · exact hne rfl
      · exact hacyclic second (hall second hspread)
  · rcases h.leads_cases hname hcycle with ⟨-, hcycle⟩ | ⟨heq, -⟩
    · exact hacyclic name hcycle
    · exact hname heq

/-- A request is read alike with an inline fragment as a fragment of its own. -/
theorem toQuery_eq (h : r.Moves r' f front back) (hacyclic : r.IsAcyclic)
    (operationName? : Option String) (variables? : Option Json) :
    (r'.named front back f).toQuery operationName? variables? =
      r.toQuery operationName? variables? := by
  have hsame : (r'.named front back f).operations = r'.operations := rfl
  refine toQuery_rewritten h.rewritten hsame (fun vs o ho ss hss => ?_) operationName? variables?
  have hreading : (r'.named front back f).reading vs = f.extend vs (r.reading vs) :=
    funext ((h.solves (hacyclic.solves_reading vs)).reading_eq (h.isAcyclic hacyclic))
  rw [hreading]
  exact hss.selectionQueries_named (h.isNew.operations o ho)

end Request.Moves

end Naming

section Rewriting

variable {r r' : Request}

theorem Request.Rewrites.isAcyclic (h : r.Rewrites r') (hacyclic : r.IsAcyclic) :
    r'.IsAcyclic := by
  cases h with
  | inlined h => exact hacyclic.inlined h
  | named h => exact h.isAcyclic hacyclic

theorem Request.Rewrites.toQuery_eq (h : r.Rewrites r') (hacyclic : r.IsAcyclic)
    (operationName? : Option String) (variables? : Option Json) :
    r'.toQuery operationName? variables? = r.toQuery operationName? variables? := by
  cases h with
  | inlined h => exact toQuery_inlined hacyclic h operationName? variables?
  | named h => exact h.toQuery_eq hacyclic operationName? variables?

/-- A request without cycles of fragments is read alike, to the same query or the same fault, after
any number of spreads have been replaced by inline fragments and any number of inline fragments
have been moved into new fragments, one after the other; and it stays without cycles. -/
theorem spreads_mean_inline_fragments (hacyclic : r.IsAcyclic)
    (hrewrites : Relation.ReflTransGen Request.Rewrites r r') :
    r'.IsAcyclic ∧
      (∀ operationName? variables?,
        r'.toQuery operationName? variables? = r.toQuery operationName? variables?) ∧
      ∀ (request : EngineRequest) (text text' : String), Request.parse? text = some r →
        Request.parse? text' = some r' →
          Engine.read { request with text := text' } = Engine.read { request with text } := by
  have hkept : r'.IsAcyclic ∧ ∀ operationName? variables?,
      r'.toQuery operationName? variables? = r.toQuery operationName? variables? := by
    induction hrewrites with
    | refl => exact ⟨hacyclic, fun _ _ => rfl⟩
    | tail _ hstep ih =>
      obtain ⟨hacyclic, hsame⟩ := ih
      exact ⟨hstep.isAcyclic hacyclic, fun operationName? variables? =>
        (hstep.toQuery_eq hacyclic operationName? variables?).trans
          (hsame operationName? variables?)⟩
  refine ⟨hkept.1, hkept.2, fun request text text' htext htext' => ?_⟩
  rw [Engine.read, Engine.read, htext, htext']
  dsimp only
  rw [hkept.2]

end Rewriting

end MappedQuery.Document

namespace MappedQuery.Peaks

open Document

def leaf (name : String) : Selection := .field none name [] [] []

/-- A directive that takes a selection only if a variable is true. -/
def included : Directive := ⟨"include", [("if", .reference "all")]⟩

def peaks (below : List Selection) : Operation :=
  ⟨.query, none, [⟨"all", .named "Boolean", none⟩], [.field none "peaks" [] [] below]⟩

def place : Fragment := ⟨"Place", "Peak", [leaf "region"]⟩

/-- The names of peaks and where they are. -/
def names : Fragment := ⟨"Names", "Peak", [leaf "name", .spread "Place" []]⟩

/-- A request with a spread under a directive and an inline fragment. -/
def request : Request where
  operations := [peaks [.spread "Names" [included], .inline (some "Peak") [] [leaf "height"]]]
  fragments := [names, place]

/-- The request with the selections of a fragment in the place of its spread. -/
def opened : Request where
  operations := [peaks [.inline (some "Peak") [included] [leaf "name", .spread "Place" []],
    .inline (some "Peak") [] [leaf "height"]]]
  fragments := [names, place]

/-- The request with the spread in these inline as well. -/
def inlined : Request where
  operations := [peaks [
    .inline (some "Peak") [included] [leaf "name", .inline (some "Peak") [] [leaf "region"]],
    .inline (some "Peak") [] [leaf "height"]]]
  fragments := [names, place]

def heights : Fragment := ⟨"Heights", "Peak", [leaf "height"]⟩

/-- The request with a spread for the last inline fragment. -/
def spread : Request where
  operations := [peaks [
    .inline (some "Peak") [included] [leaf "name", .inline (some "Peak") [] [leaf "region"]],
    .spread "Heights" []]]
  fragments := [names, place]

theorem isAcyclic : request.IsAcyclic := by
  refine Request.isAcyclic_of_rank (fun name => if name = "Names" then 1 else 0) ?_
  intro f hf name hname
  rcases List.mem_pair.1 hf with rfl | rfl
  · simp [names, leaf, someSpread, Selection.spreads] at hname
    subst hname
    decide
  · simp [place, leaf, someSpread, Selection.spreads] at hname

theorem opens : request.Rewritten request.Inlines opened :=
  ⟨.cons ⟨.field (.replaced (.mk (f := names) _ rfl) (.refl _)) .nil⟩ .nil, fragments_kept _⟩

theorem inlines : opened.Rewritten opened.Inlines inlined :=
  ⟨.cons ⟨.field (.inline (.kept (.replaced (.mk (f := place) _ rfl) .nil)) (.refl _)) .nil⟩ .nil,
    fragments_kept _⟩

theorem moves : inlined.Moves spread heights [names] [place] where
  isNew := ⟨by decide, by decide, by decide⟩
  isFree := by decide
  rewritten := ⟨.cons ⟨.field (.kept (.replaced (.mk _) .nil)) .nil⟩ .nil, fragments_kept _⟩
  fragments := rfl

theorem rewrites : Relation.ReflTransGen Request.Rewrites request
    (spread.named [names] [place] heights) :=
  ((Relation.ReflTransGen.single (.inlined opens)).tail (.inlined inlines)).tail (.named moves)

/-- Two spreads inline, one of them inside the other, and an inline fragment as a fragment. -/
theorem peaks_are_read_alike :
    request.IsAcyclic ∧
      Relation.ReflTransGen Request.Rewrites request (spread.named [names] [place] heights) ∧
      ∀ operationName? variables?,
        (spread.named [names] [place] heights).toQuery operationName? variables? =
          request.toQuery operationName? variables? :=
  ⟨isAcyclic, rewrites, (spreads_mean_inline_fragments isAcyclic rewrites).2.1⟩

end MappedQuery.Peaks
