import MappedQuery.Proofs.RequestGaps
import MappedQuery.Proofs.SelectionSites

/-!
# Transparent fragments

A part of a selection set means the same where it stands, in a fragment without a condition, in a
fragment on the type of the selection set, and as a named fragment on that type.
A request in which the part stands somewhere is a request with a gap, which is the spread of a new
name, and with the gap filled. The two readings of a filled request are compared step by step,
together with the sites at which the selections are elaborated.
-/
namespace MappedQuery

namespace Document

/-- The site within a fragment, which may have no condition. -/
def siteIn (e : Engine) (p : Site) : Option String → Site
  | some type => p.narrowed e type
  | none => p

/-- Selections at one site have a spread of a name without directives at another one, in
themselves, in fragments that are spread there, or in what the spread stands for. -/
inductive Reaches (e : Engine) (r : Request) (gap : String) (part : List Selection) :
    Site → List Selection → Site → Prop
  | here {p : Site} {ss : List Selection} (h : .spread gap [] ∈ ss) : Reaches e r gap part p ss p
  | field {p q : Site} {ss below : List Selection} {alias? : Option String} {name : String}
    {arguments : List (String × Value)} {directives : List Directive}
    (h : .field alias? name arguments directives below ∈ ss)
    (hbelow : Reaches e r gap part (p.field e name) below q) : Reaches e r gap part p ss q
  | inline {p q : Site} {ss inner : List Selection} {type? : Option String}
    {directives : List Directive} (h : .inline type? directives inner ∈ ss)
    (hinner : Reaches e r gap part (siteIn e p type?) inner q) : Reaches e r gap part p ss q
  | spread {p q : Site} {ss : List Selection} {name : String} {directives : List Directive}
    {f : Fragment} (h : .spread name directives ∈ ss) (hf : r.fragment? name = some f)
    (hspread : Reaches e r gap part (p.narrowed e f.type) f.selections q) :
    Reaches e r gap part p ss q
  | filled {p q : Site} {ss : List Selection} (h : .spread gap [] ∈ ss)
    (hpart : Reaches e r gap part p part q) : Reaches e r gap part p ss q

/-- Two computations fail with one fault, or they give related results. -/
inductive BothGive {ε α β : Type} (R : α → β → Prop) : Except ε α → Except ε β → Prop
  | fault (f : ε) : BothGive R (.error f) (.error f)
  | result {a : α} {b : β} (h : R a b) : BothGive R (.ok a) (.ok b)

namespace BothGive

variable {ε α β γ δ : Type} {R : α → β → Prop} {S : γ → δ → Prop}

theorem bind {x : Except ε α} {y : Except ε β} {f : α → Except ε γ} {g : β → Except ε δ}
    (h : BothGive R x y) (hf : ∀ a b, R a b → BothGive S (f a) (g b)) :
    BothGive S (x >>= f) (y >>= g) := by
  cases h with
  | fault e => exact .fault e
  | result h => exact hf _ _ h

theorem map {x : Except ε α} {y : Except ε β} {f : α → γ} {g : β → δ}
    (h : BothGive R x y) (hf : ∀ a b, R a b → S (f a) (g b)) :
    BothGive S (x >>= fun a => pure (f a)) (y >>= fun b => pure (g b)) :=
  h.bind fun a b hab => .result (hf a b hab)

/-- One computation before both. -/
theorem after {x : Except ε α} {f : α → Except ε γ} {g : α → Except ε δ}
    (hf : ∀ a, x = .ok a → BothGive S (f a) (g a)) : BothGive S (x >>= f) (x >>= g) := by
  cases x with
  | error e => exact .fault e
  | ok a => exact hf a rfl

/-- Directives that are read before both. -/
theorem included {R : Option α → Option β → Prop} (hnone : R none none) {vs : Variables}
    (directives : List Directive) {x : Except RequestFault (Option α)}
    {y : Except RequestFault (Option β)} (h : BothGive R x y) :
    BothGive R (do if ← isIncluded vs directives then x else pure none)
      (do if ← isIncluded vs directives then y else pure none) := by
  refine .after fun included _ => ?_
  cases included with
  | true => exact h
  | false => exact .result hnone

end BothGive

section Filled

variable {e : Engine} {allow : Bool} {r : Request} {vs : Variables} {gap : String}
  {part x y : List Selection} {expand expand' : String → Except RequestFault Query}

/-- All sites of the gap that selections reach have a property. -/
def Fine (e : Engine) (r : Request) (gap : String) (part : List Selection) (admits : Site → Prop)
    (p : Site) (ss : List Selection) : Prop :=
  ∀ q, Reaches e r gap part p ss q → admits q

variable {admits : Site → Prop}

theorem Fine.cons {p : Site} {s : Selection} {rest : List Selection}
    (h : Fine e r gap part admits p (s :: rest)) :
    Fine e r gap part admits p [s] ∧ Fine e r gap part admits p rest := by
  have hmono {ss ss' : List Selection} (hsub : ∀ s ∈ ss, s ∈ ss') {q : Site}
      (hq : Reaches e r gap part p ss q) : Reaches e r gap part p ss' q := by
    cases hq with
    | here h => exact .here (hsub _ h)
    | field h hbelow => exact .field (hsub _ h) hbelow
    | inline h hinner => exact .inline (hsub _ h) hinner
    | spread h hf hspread => exact .spread (hsub _ h) hf hspread
    | filled h hpart => exact .filled (hsub _ h) hpart
  exact ⟨fun q hq => h q (hmono (by simp) hq), fun q hq => h q (hmono (by simp_all) hq)⟩

theorem BothGive.singleton {R : List Query → List Query → Prop} {s s' : Selection}
    (h : BothGive (fun q q' => R q.toList q'.toList) (s.toQuery? vs expand)
      (s'.toQuery? vs expand')) :
    BothGive R (selectionQueries vs expand [s]) (selectionQueries vs expand' [s']) := by
  rw [selectionQueries_singleton, selectionQueries_singleton]
  exact h.map fun _ _ hq => hq

/-- What is alike stays alike beside others. -/
theorem BothGive.append {p : Site} {as as' bs bs' : List Selection}
    (has : BothGive (p.Alike e allow) (selectionQueries vs expand as)
      (selectionQueries vs expand' as'))
    (hbs : BothGive (p.Alike e allow) (selectionQueries vs expand bs)
      (selectionQueries vs expand' bs')) :
    BothGive (p.Alike e allow) (selectionQueries vs expand (as ++ bs))
      (selectionQueries vs expand' (as' ++ bs')) := by
  rw [selectionQueries_append, selectionQueries_append]
  exact has.bind fun _ _ ha => hbs.map fun _ _ hb => ha.append hb

/-- Two readings of a request whose gap is filled in two ways: spreads are alike, and so are the
fillings wherever the gap is. -/
structure AlikeReadings (e : Engine) (allow : Bool) (r : Request) (vs : Variables) (gap : String)
    (part : List Selection) (admits : Site → Prop)
    (expand expand' : String → Except RequestFault Query) (x y : List Selection) : Prop where
  spreads (name : String) (p : Site) : (∀ f, r.fragment? name = some f →
      Fine e r gap part admits (p.narrowed e f.type) f.selections) →
    BothGive (fun q q' => p.Alike e allow [q] [q']) (expand name) (expand' name)
  gaps (p : Site) : Fine e r gap part admits p [.spread gap []] →
    BothGive (p.Alike e allow) (selectionQueries vs expand x) (selectionQueries vs expand' y)

mutual

/-- A selection with a gap is alike in both readings. -/
theorem fill_alike (hreadings : AlikeReadings e allow r vs gap part admits expand expand' x y) :
    ∀ {s : Selection} {p : Site}, Fine e r gap part admits p [s] →
    BothGive (p.Alike e allow) (selectionQueries vs expand (s.fill gap x))
      (selectionQueries vs expand' (s.fill gap y))
  | .field alias? name arguments directives below, p, h => by
    have hfine : Fine e r gap part admits (p.field e name) below := fun q hq =>
      h q (.field List.mem_cons_self hq)
    have hbelow := fillAll_alike hreadings hfine
    have hnone : p.Alike e allow [] [] := .of_members rfl
    rw [Selection.fill, Selection.fill]
    refine .singleton ?_
    rw [Selection.toQuery?, Selection.toQuery?]
    refine .included hnone _ ?_
    exact .after fun bindings _ => hbelow.map fun qs qs' hqs => hqs.select _ _
  | .spread name directives, p, h => by
    rw [Selection.fill, Selection.fill]
    split
    · rename_i hname
      obtain ⟨rfl, hdirectives⟩ := hname
      obtain rfl := List.isEmpty_iff.1 hdirectives
      exact hreadings.gaps p h
    · have hspread := hreadings.spreads name p fun f hf q hq =>
        h q (.spread List.mem_cons_self hf hq)
      have hnone : p.Alike e allow [] [] := .of_members rfl
      refine .singleton ?_
      rw [Selection.toQuery?, Selection.toQuery?]
      refine .included hnone _ ?_
      rw [map_eq_pure_bind, map_eq_pure_bind]
      exact hspread.map fun _ _ hq => hq
  | .inline type? directives inner, p, h => by
    have hfine : Fine e r gap part admits (siteIn e p type?) inner := fun q hq =>
      h q (.inline List.mem_cons_self hq)
    have hinner := fillAll_alike hreadings hfine
    have hnone : p.Alike e allow [] [] := .of_members rfl
    rw [Selection.fill, Selection.fill]
    refine .singleton ?_
    rw [Selection.toQuery?, Selection.toQuery?]
    refine .included hnone _ (hinner.bind fun qs qs' hqs => ?_)
    cases type? with
    | none => exact .result hqs.group
    | some type => exact .result hqs.narrow

theorem fillAll_alike (hreadings : AlikeReadings e allow r vs gap part admits expand expand' x y) :
    ∀ {ss : List Selection} {p : Site}, Fine e r gap part admits p ss →
    BothGive (p.Alike e allow) (selectionQueries vs expand (fillAll gap x ss))
      (selectionQueries vs expand' (fillAll gap y ss))
  | [], p, _ => .result (.of_members rfl)
  | s :: rest, p, h => by
    obtain ⟨hs, hrest⟩ := h.cons
    rw [fillAll, fillAll]
    exact .append (fill_alike hreadings hs) (fillAll_alike hreadings hrest)

end

section LeftOut

/-- Whether directives leave a selection out. -/
def leavesOut (vs : Variables) (directives : List Directive) : Bool :=
  match isIncluded vs directives with
  | .ok false => true
  | _ => false

mutual

/-- Whether directives leave out a selection, or all of a fragment without a condition. -/
def Selection.isLeftOut (vs : Variables) : Selection → Bool
  | .field _ _ _ directives _ => leavesOut vs directives
  | .spread _ directives => leavesOut vs directives
  | .inline (some _) directives _ => leavesOut vs directives
  | .inline none directives inner => leavesOut vs directives || allLeftOut vs inner

def allLeftOut (vs : Variables) : List Selection → Bool
  | [] => true
  | s :: rest => s.isLeftOut vs && allLeftOut vs rest

end

mutual

/-- Whether a selection that stands at the root asks for the schema. -/
def Selection.asksSchema : Selection → Bool
  | .field _ name _ _ _ => Query.introspectionRoots.contains name
  | .spread .. => false
  | .inline (some _) _ _ => false
  | .inline none _ inner => someAskSchema inner

def someAskSchema : List Selection → Bool
  | [] => false
  | s :: rest => s.asksSchema || someAskSchema rest

end

/-- What was read under directives was read, or left out by them. -/
theorem of_included {directives : List Directive} {x : Except RequestFault (Option Query)}
    {q? : Option Query}
    (h : (do if ← isIncluded vs directives then x else pure none) = .ok q?) :
    (leavesOut vs directives = true ∧ q? = none) ∨ x = .ok q? := by
  obtain ⟨included, hincluded, hx⟩ := bind_eq_ok.1 h
  cases included with
  | true => exact .inr hx
  | false => exact .inl ⟨by rw [leavesOut, hincluded], (pure_eq_ok.1 hx).symm⟩

/-- The members that selections were read as: there are some unless all selections are left out,
and none of them asks for the schema unless a selection does. -/
structure ReadAs (leftOut asksSchema : Bool) (qs : List Query) : Prop where
  some_of_left : leftOut = false → Query.membersAll qs ≠ []
  no_introspection : asksSchema = false →
    ∀ q ∈ Query.membersAll qs, q.isIntrospectionRoot = false

namespace ReadAs

theorem leftOut {asks : Bool} : ReadAs true asks [] :=
  ⟨fun h => Bool.noConfusion h, fun _ _ hq => (List.not_mem_nil hq).elim⟩

theorem select {asks leftOut : Bool} {name : String} {alias? : Option String}
    {bindings : List Binding} {child : Query}
    (h : asks = false → Query.introspectionRoots.contains name = false) :
    ReadAs leftOut asks [.select name alias? bindings child] := by
  have hmembers : Query.membersAll [.select name alias? bindings child] =
      [.select name alias? bindings child] := by
    simp [Query.membersAll, Query.members_select]
  refine ⟨fun _ => by simp [hmembers], fun hasks q hq => ?_⟩
  rw [hmembers] at hq
  rw [List.mem_singleton.1 hq, Query.isIntrospectionRoot, h hasks]

theorem narrow {asks leftOut : Bool} {type : String} {child : Query} :
    ReadAs leftOut asks [.narrow type child] := by
  have hmembers : Query.membersAll [.narrow type child] = [.narrow type child] := by
    simp [Query.membersAll, Query.members_narrow]
  refine ⟨fun _ => by simp [hmembers], fun _ q hq => ?_⟩
  rw [hmembers] at hq
  rw [List.mem_singleton.1 hq, Query.isIntrospectionRoot.eq_def]

theorem append {leftOut leftOut' asks asks' : Bool} {as bs : List Query}
    (has : ReadAs leftOut asks as) (hbs : ReadAs leftOut' asks' bs) :
    ReadAs (leftOut && leftOut') (asks || asks') (as ++ bs) := by
  refine ⟨fun h hnone => ?_, fun h q hq => ?_⟩
  · rw [Query.membersAll_append, List.append_eq_nil_iff] at hnone
    rcases Bool.and_eq_false_iff.1 h with h | h
    · exact has.some_of_left h hnone.1
    · exact hbs.some_of_left h hnone.2
  · rw [Bool.or_eq_false_iff] at h
    rw [Query.membersAll_append, List.mem_append] at hq
    exact hq.elim (has.no_introspection h.1 q) (hbs.no_introspection h.2 q)

end ReadAs

mutual

theorem readAs_toQuery?
    (hnarrow : ∀ name q, expand name = .ok q → ∃ type child, q = .narrow type child) :
    ∀ {s : Selection} {q? : Option Query}, s.toQuery? vs expand = .ok q? →
    ReadAs (s.isLeftOut vs) s.asksSchema q?.toList
  | .field alias? name arguments directives below, q?, h => by
    rw [Selection.toQuery?] at h
    rw [Selection.isLeftOut, Selection.asksSchema]
    obtain ⟨hleft, rfl⟩ | h := of_included h
    · rw [hleft]
      exact .leftOut
    · obtain ⟨bindings, -, h⟩ := bind_eq_ok.1 h
      obtain ⟨queries, -, h⟩ := bind_eq_ok.1 h
      obtain rfl := pure_eq_ok.1 h
      exact .select id
  | .spread name directives, q?, h => by
    rw [Selection.toQuery?] at h
    rw [Selection.isLeftOut, Selection.asksSchema]
    obtain ⟨hleft, rfl⟩ | h := of_included h
    · rw [hleft]
      exact .leftOut
    · obtain ⟨q, hq, rfl⟩ := map_eq_ok.1 h
      obtain ⟨type, child, rfl⟩ := hnarrow name q hq
      exact .narrow
  | .inline (some type) directives inner, q?, h => by
    rw [Selection.toQuery?] at h
    rw [Selection.isLeftOut, Selection.asksSchema]
    obtain ⟨hleft, rfl⟩ | h := of_included h
    · rw [hleft]
      exact .leftOut
    · obtain ⟨qs, -, h⟩ := bind_eq_ok.1 h
      obtain rfl := pure_eq_ok.1 h
      exact .narrow
  | .inline none directives inner, q?, h => by
    rw [Selection.toQuery?] at h
    rw [Selection.isLeftOut, Selection.asksSchema]
    obtain ⟨hleft, rfl⟩ | h := of_included h
    · rw [hleft, Bool.true_or]
      exact .leftOut
    · obtain ⟨qs, hqs, h⟩ := bind_eq_ok.1 h
      obtain rfl := pure_eq_ok.1 h
      obtain ⟨hsome, hintrospection⟩ := readAs_selectionQueries hnarrow hqs
      have hmembers : Query.membersAll (some (Query.grouped qs)).toList = Query.membersAll qs :=
        Query.membersAll_singleton_grouped qs
      exact ⟨fun hleft => hmembers ▸ hsome (Bool.or_eq_false_iff.1 hleft).2,
        fun hasks => hmembers ▸ hintrospection hasks⟩

theorem readAs_selectionQueries
    (hnarrow : ∀ name q, expand name = .ok q → ∃ type child, q = .narrow type child) :
    ∀ {ss : List Selection} {qs : List Query},
    selectionQueries vs expand ss = .ok qs → ReadAs (allLeftOut vs ss) (someAskSchema ss) qs
  | [], qs, h => by
    rw [selectionQueries] at h
    cases h
    exact .leftOut
  | s :: rest, qs, h => by
    rw [selectionQueries] at h
    obtain ⟨q?, hq, h⟩ := bind_eq_ok.1 h
    obtain ⟨others, hothers, h⟩ := bind_eq_ok.1 h
    obtain rfl := pure_eq_ok.1 h
    exact .append (readAs_toQuery? hnarrow hq) (readAs_selectionQueries hnarrow hothers)

end

end LeftOut

/-- Around a part that is read alike a filling makes something that is alike, wherever it is
admitted. -/
def AlikeAround (e : Engine) (allow : Bool) (vs : Variables) (admits : Site → Prop)
    (part y : List Selection) : Prop :=
  ∀ (expand expand' : String → Except RequestFault Query) (p : Site), admits p →
    (∀ name q, expand' name = .ok q → ∃ type child, q = .narrow type child) →
    BothGive (p.Alike e allow) (selectionQueries vs expand part)
      (selectionQueries vs expand' part) →
    BothGive (p.Alike e allow) (selectionQueries vs expand part) (selectionQueries vs expand' y)

/-- A fragment without a condition is like its selections everywhere. -/
theorem alikeAround_bare : AlikeAround e allow vs (fun _ => True) part [.inline none [] part] := by
  intro expand expand' p _ _ h
  rw [selectionQueries_inline, ← bind_pure (selectionQueries vs expand part)]
  exact h.map fun _ _ hqs => hqs.trans (.of_members (Query.membersAll_singleton_grouped _).symm)

/-- A part of a selection set that may be wrapped into a fragment on a type at a site: the site
has the type, something is left of the part where an empty selection set counts, and at the root the
part does not ask for the schema. -/
structure Wraps (e : Engine) (vs : Variables) (type : String) (part : List Selection) (p : Site) :
    Prop where
  type : ∀ t, p.type? e = some t → t = type
  left : p ≠ .root → allLeftOut vs part = false
  no_introspection : p = .root → someAskSchema part = false

/-- A fragment on the type of a site is like its selections there. -/
theorem alikeAround_typed (type : String) :
    AlikeAround e allow vs (Wraps e vs type part) part [.inline (some type) [] part] := by
  intro expand expand' p hp hnarrow h
  rw [selectionQueries_inline]
  generalize selectionQueries vs expand part = as at h
  generalize hbs : selectionQueries vs expand' part = bs at h
  cases h with
  | fault f => exact .fault f
  | result hqs =>
    obtain ⟨hsome, hintrospection⟩ := readAs_selectionQueries hnarrow hbs
    exact .result (hqs.trans (.narrow_type hp.type (fun hroot => hsome (hp.left hroot))
      fun hroot => hintrospection (hp.no_introspection hroot)))

theorem AlikeReadings.of_spreads (hy : AlikeAround e allow vs admits part y)
    (hnarrow : ∀ name q, expand' name = .ok q → ∃ type child, q = .narrow type child)
    (hspreads : ∀ (name : String) (p : Site), (∀ f, r.fragment? name = some f →
        Fine e r gap part admits (p.narrowed e f.type) f.selections) →
      BothGive (fun q q' => p.Alike e allow [q] [q']) (expand name) (expand' name)) :
    AlikeReadings e allow r vs gap part admits expand expand' part y := by
  have hself : AlikeReadings e allow r vs gap part admits expand expand' [.spread gap []]
      [.spread gap []] := by
    refine ⟨hspreads, fun p hp => ?_⟩
    have hspread := hspreads gap p fun f hf q hq => hp q (.spread List.mem_cons_self hf hq)
    refine .singleton ?_
    rw [Selection.toQuery?, Selection.toQuery?]
    refine .included (.of_members rfl : p.Alike e allow [] []) _ ?_
    rw [map_eq_pure_bind, map_eq_pure_bind]
    exact hspread.map fun _ _ hq => hq
  refine ⟨hspreads, fun p hp => ?_⟩
  have hfine : Fine e r gap part admits p part := fun q hq => hp q (.filled List.mem_cons_self hq)
  have hpart := fillAll_alike hself hfine
  rw [fillAll_self] at hpart
  exact hy expand expand' p (hp p (.here List.mem_cons_self)) hnarrow hpart

section Expand

variable {levels : Nat} {enclosing : List String} {name : String} {f : Fragment}

/-- A fragment of a request whose gap is filled in two ways. -/
theorem expand_alike {p : Site} (hy : AlikeAround e allow vs admits part y)
    (h : ∀ f, r.fragment? name = some f →
      Fine e r gap part admits (p.narrowed e f.type) f.selections) :
    BothGive (fun q q' => p.Alike e allow [q] [q'])
      ((r.fill gap part).expand vs levels enclosing name)
      ((r.fill gap y).expand vs levels enclosing name) := by
  have hfilled (x : List Selection) := fragment?_fill r gap x name
  induction levels generalizing enclosing name p with
  | zero =>
    cases hf : r.fragment? name with
    | none =>
      rw [hf] at hfilled
      rw [expand_of_unknown (hfilled part), expand_of_unknown (hfilled y)]
      exact .fault _
    | some f =>
      rw [hf] at hfilled
      rw [expand_zero (hfilled part), expand_zero (hfilled y)]
      exact .fault _
  | succ levels ih =>
    cases hf : r.fragment? name with
    | none =>
      rw [hf] at hfilled
      rw [expand_of_unknown (hfilled part), expand_of_unknown (hfilled y)]
      exact .fault _
    | some f =>
      rw [hf] at hfilled
      by_cases hmem : name ∈ enclosing
      · rw [expand_of_mem (hfilled part) hmem, expand_of_mem (hfilled y) hmem]
        exact .fault _
      · rw [expand_succ (hfilled part) hmem, expand_succ (hfilled y) hmem]
        have hreadings : AlikeReadings e allow r vs gap part admits
            ((r.fill gap part).expand vs levels (name :: enclosing))
            ((r.fill gap y).expand vs levels (name :: enclosing)) part y :=
          .of_spreads hy (fun _ _ => exists_narrow_of_expand) fun other _ hother =>
            ih hother fun x => fragment?_fill r gap x other
        exact (fillAll_alike hreadings (h f hf)).map fun _ _ hqs => hqs.narrow

end Expand

/-- A request whose gap is filled in two ways is read as queries that are compiled alike. -/
theorem toQuery_alike {operationName? : Option String} {variables? : Option Json}
    {admits : Variables → Site → Prop} (hy : ∀ vs, AlikeAround e allow vs (admits vs) part y)
    (h : ∀ o vs, r.operation operationName? = .ok o →
      Variables.bind variables? o.variableDefinitions = .ok vs →
        Fine e r gap part (admits vs) .root o.selections) :
    BothGive (fun q q' => e.compileQuery allow q = e.compileQuery allow q')
      ((r.fill gap part).toQuery operationName? variables?)
      ((r.fill gap y).toQuery operationName? variables?) := by
  rw [Request.toQuery, Request.toQuery, operation_fill, operation_fill]
  cases ho : r.operation operationName? with
  | error f => exact .fault f
  | ok o =>
    rw [map_ok, map_ok, ok_bind, ok_bind]
    cases o.kind with
    | mutation => exact .fault _
    | subscription => exact .fault _
    | query =>
      refine .after fun vs hvs => ?_
      have hlength (x : List Selection) : (r.fill gap x).fragments.length = r.fragments.length :=
        List.length_map _
      have hreadings : AlikeReadings e allow r vs gap part (admits vs)
          ((r.fill gap part).expand vs r.fragments.length [])
          ((r.fill gap y).expand vs r.fragments.length []) part y :=
        .of_spreads (hy vs) (fun _ _ => exists_narrow_of_expand) fun _ _ => expand_alike (hy vs)
      rw [hlength, hlength]
      exact (fillAll_alike hreadings (h o vs ho hvs)).map fun _ _ hqs => hqs.compileQuery

end Filled

/-- What becomes of a request with a gap when the part that fills the gap is wrapped into a fragment
in its place, without a condition or on a type, or is moved to a named fragment on the type. -/
inductive Wrapping (r : Request) (gap : String) (part : List Selection) :
    Option String → Request → Prop
  | bare : Wrapping r gap part none (r.fill gap [.inline none [] part])
  | inline (type : String) :
    Wrapping r gap part (some type) (r.fill gap [.inline (some type) [] part])
  | named (type : String) {front back : List Fragment} (hfragments : r.fragments = front ++ back)
    (hnew : r.fragment? gap = none) (hone : r.HasOneGap gap)
    (hpart : someSpread gap part = false) :
    Wrapping r gap part (some type) (r.named front back ⟨gap, type, part⟩)

end Document

namespace Engine

/-- Compiles a document with all else that a request says. -/
def compileDocument (e : Engine) (r : EngineRequest) (d : Document.Request) : Outcome Query :=
  match d.toQuery r.operationName? r.variables? with
  | .ok q => e.compileQuery r.allowIntrospection q
  | .error cause => .failure (Fault.request cause).toProblem

theorem compile_of_parse? (e : Engine) {r : EngineRequest} {d : Document.Request}
    (h : Document.Request.parse? r.text = some d) : e.compile r = e.compileDocument r d := by
  rw [compile, read, h, compileDocument]
  dsimp only
  cases d.toQuery r.operationName? r.variables? with
  | ok q => exact Outcome.success_andThen q _
  | error cause => rfl

open Document

theorem compileDocument_congr (e : Engine) (r : EngineRequest) {d d' : Document.Request}
    (h : BothGive (fun q q' => e.compileQuery r.allowIntrospection q =
        e.compileQuery r.allowIntrospection q')
      (d.toQuery r.operationName? r.variables?) (d'.toQuery r.operationName? r.variables?)) :
    e.compileDocument r d = e.compileDocument r d' := by
  unfold compileDocument
  generalize d.toQuery r.operationName? r.variables? = x at h
  generalize d'.toQuery r.operationName? r.variables? = y at h
  cases h with
  | fault f => rfl
  | result hq => exact hq

/-- A part of a selection set is compiled alike where it stands and wrapped into a fragment: without
a condition always, and on a type, in its place or as a named fragment, if the type is that of each
site where the part is elaborated, directives leave something of the part where an empty
selection set counts, and the part does not ask for the schema at the root. -/
theorem fragments_are_transparent (e : Engine) (request : EngineRequest) {r r' : Document.Request}
    {gap : String} {part : List Selection} {type? : Option String}
    (hwrapped : Wrapping r gap part type? r')
    (hsites : ∀ type, type? = some type → ∀ o vs, r.operation request.operationName? = .ok o →
      Variables.bind request.variables? o.variableDefinitions = .ok vs →
        ∀ p, Reaches e r gap part .root o.selections p → Wraps e vs type part p) :
    e.compileDocument request r' = e.compileDocument request (r.fill gap part) ∧
      ∀ text text', Document.Request.parse? text = some (r.fill gap part) →
        Document.Request.parse? text' = some r' →
          e.compile { request with text := text' } = e.compile { request with text } := by
  have hdocument : e.compileDocument request r' =
      e.compileDocument request (r.fill gap part) := by
    cases hwrapped with
    | bare =>
      exact (compileDocument_congr e request (toQuery_alike (fun _ => alikeAround_bare)
        fun _ _ _ _ _ _ => trivial)).symm
    | inline type =>
      exact (compileDocument_congr e request (toQuery_alike (fun _ => alikeAround_typed type)
        (hsites type rfl))).symm
    | named type hfragments hnew hone hpart =>
      rw [compileDocument, toQuery_named hfragments hnew hone hpart]
      exact (compileDocument_congr e request (toQuery_alike (fun _ => alikeAround_typed type)
        (hsites type rfl))).symm
  refine ⟨hdocument, fun text text' htext htext' => ?_⟩
  exact (compile_of_parse? e (r := { request with text := text' }) htext').trans
    (hdocument.trans (compile_of_parse? e (r := { request with text }) htext).symm)

end Engine

namespace Rivers

def schema : Schema := Schema.ofTypes [
  .object ⟨"Query", [⟨"rivers", [], .list (.named "River")⟩], []⟩,
  .object ⟨"River", [⟨"name", [], .named "String"⟩, ⟨"length", [], .nullable (.named "Int")⟩], []⟩]
  "Query"

def engine : Engine := .ofMapping (.documents {
  schema
  types := [
    .object ⟨"Query", [.root "rivers" (.array [.object [("name", .string "Rhine")]])]⟩,
    .object ⟨"River", [.source (.same "name"), .source (.same "length")]⟩]
  elaborators := [] })

open Document

def field (name : String) (below : List Selection) : Selection := .field none name [] [] below

/-- Rivers with what a fragment on rivers has, which has a gap. -/
def template : Document.Request where
  operations := [⟨.query, none, [], [field "rivers" [.spread "course" []]]⟩]
  fragments := [⟨"course", "River", [field "name" [], .spread "gap" []]⟩]

/-- A selection that is left out, and one that is not. -/
def part : List Selection :=
  [.field none "name" [] [⟨"skip", [("if", .boolean true)]⟩] [], field "length" []]

def request : EngineRequest := ⟨"", none, none, true⟩

theorem wrapping : Wrapping template "gap" part (some "River")
    (template.named [] template.fragments ⟨"gap", "River", part⟩) :=
  .named "River" rfl rfl ⟨by decide, by decide, by decide, by decide⟩ rfl

theorem not_reaches_leaf {p q : Site} {ss : List Selection}
    (hleaves : ∀ s ∈ ss, ∃ name directives, s = .field none name [] directives []) :
    ¬ Reaches engine template "gap" part p ss q := by
  suffices key : ∀ ss, Reaches engine template "gap" part p ss q →
      (∀ s ∈ ss, ∃ name directives, s = .field none name [] directives []) → False from
    fun h => key ss h hleaves
  intro ss h
  induction h with
  | here h | spread h | inline h | filled h =>
    intro hleaves
    obtain ⟨_, _, h⟩ := hleaves _ h
    cases h
  | field h _ ih =>
    intro hleaves
    obtain ⟨_, _, h⟩ := hleaves _ h
    cases h
    exact ih (by simp)

/-- The gap is on rivers. -/
theorem gap_is_on_rivers {p : Site} (h : Reaches engine template "gap" part .root
    [field "rivers" [.spread "course" []]] p) : p = .inside engine.mapping "River" ["rivers"] := by
  have hsite : Site.field engine .root "rivers" = .inside engine.mapping "River" ["rivers"] := rfl
  cases h with
  | here h | spread h | inline h | filled h => simp [field] at h
  | field h hbelow =>
    cases List.mem_singleton.1 h
    rw [hsite] at hbelow
    cases hbelow with
    | here h | inline h | field h | filled h => simp at h
    | spread h hf hspread =>
      cases List.mem_singleton.1 h
      cases hf
      cases hspread with
      | here h => rfl
      | inline h => simp [field] at h
      | field h hbelow =>
        simp only [List.mem_cons, reduceCtorEq, List.not_mem_nil, or_false] at h
        cases h
        exact absurd hbelow (not_reaches_leaf (by simp))
      | spread h hf =>
        simp only [field, List.mem_cons, reduceCtorEq, List.not_mem_nil, or_false, false_or] at h
        cases h
        cases hf
      | filled h hpart =>
        refine absurd hpart (not_reaches_leaf fun s hs => ?_)
        rcases List.mem_cons.1 hs with rfl | hs
        · exact ⟨_, _, rfl⟩
        · exact ⟨_, _, List.mem_singleton.1 hs⟩

/-- The part may stand in a fragment of its own. -/
theorem length_may_be_named :
    Wrapping template "gap" part (some "River")
      (template.named [] template.fragments ⟨"gap", "River", part⟩) ∧
    engine.compileDocument request (template.named [] template.fragments ⟨"gap", "River", part⟩) =
      engine.compileDocument request (template.fill "gap" part) := by
  refine ⟨wrapping, (engine.fragments_are_transparent request wrapping ?_).1⟩
  rintro _ ⟨⟩ _ vs ⟨⟩ hvs p hp
  rw [gap_is_on_rivers hp]
  refine ⟨?_, fun _ => rfl, fun h => by cases h⟩
  rintro _ ⟨⟩
  rfl

end Rivers

end MappedQuery
