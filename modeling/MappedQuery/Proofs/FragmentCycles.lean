import Mathlib.Data.List.Chain
import Mathlib.Logic.Relation
import MappedQuery.Proofs.RequestGaps

/-!
# Cycles of fragments

Reading selections enters the fragments that they spread and goes on with the selections of these.
`Request.Reads` tells what this comes to, without a bound on the levels of spreads. It has an end
for every request, since a fragment is entered only where it does not enclose itself, and ends as
the reading that gives up after as many levels as there are fragments. A fragment is refused for a
cycle if its own selections lead back to it by spreads that are taken, and no reading goes right
that comes to such a fragment.
-/
namespace MappedQuery.Document

/-! ## What reading comes to -/

namespace Selection

def directives : Selection → List Directive
  | field _ _ _ directives _ => directives
  | spread _ directives => directives
  | inline _ directives _ => directives

/-- The selections that stand directly in a selection. -/
def inner : Selection → List Selection
  | field _ _ _ _ selections => selections
  | spread _ _ => []
  | inline _ _ selections => selections

/-- A selection that is a fault itself, whatever it spreads. -/
inductive Faulty (vs : Variables) : Selection → RequestFault → Prop where
  | directive {s : Selection} {fault : RequestFault} :
      isIncluded vs s.directives = .error fault → Faulty vs s fault
  | argument {alias? : Option String} {name : String} {arguments : List (String × Value)}
      {directives : List Directive} {selections : List Selection} {a : String × Value}
      {fault : RequestFault} : isIncluded vs directives = .ok true → a ∈ arguments →
      vs.substitute a.2 = .error fault →
      Faulty vs (.field alias? name arguments directives selections) fault

end Selection

/-- A selection stands in others, and what it stands in is taken. -/
inductive Within (vs : Variables) (ss : List Selection) : Selection → Prop where
  | here {s : Selection} : s ∈ ss → Within vs ss s
  | inside {s t : Selection} : Within vs ss s → isIncluded vs s.directives = .ok true →
      t ∈ s.inner → Within vs ss t

/-- A fragment is spread in selections, and the spread is taken. -/
def Spreads (vs : Variables) (ss : List Selection) (name : String) : Prop :=
  ∃ directives, Within vs ss (.spread name directives) ∧ isIncluded vs directives = .ok true

namespace Request

/-- A fragment spreads another. -/
def Leads (r : Request) (vs : Variables) (a b : String) : Prop :=
  ∃ f, r.fragment? a = some f ∧ Spreads vs f.selections b

/-- Selections lead to a fragment, by one spread or several. -/
def Reaches (r : Request) (vs : Variables) (ss : List Selection) (name : String) : Prop :=
  ∃ first, Spreads vs ss first ∧ Relation.ReflTransGen (r.Leads vs) first name

/-- A fragment leads back to itself. -/
def Cyclic (r : Request) (vs : Variables) (name : String) : Prop :=
  Relation.TransGen (r.Leads vs) name name

/-- What is met at selections and at those of the fragments that they lead to, other than a
cycle. -/
inductive Meets (r : Request) (vs : Variables) (ss : List Selection) : RequestFault → Prop where
  | here {s : Selection} {fault : RequestFault} : Within vs ss s → s.Faulty vs fault →
      Meets r vs ss fault
  | inside {name : String} {f : Fragment} {s : Selection} {fault : RequestFault} :
      r.Reaches vs ss name → r.fragment? name = some f → Within vs f.selections s →
      s.Faulty vs fault → Meets r vs ss fault
  | unknown {name : String} : r.Reaches vs ss name → r.fragment? name = none →
      Meets r vs ss (.unknownFragment name)

end Request

section Reaching

variable {r : Request} {vs : Variables} {ss ss' : List Selection} {s t : Selection}
  {name first : String} {f : Fragment} {fault : RequestFault}

theorem within_head (ht : t ∈ [s]) : Within vs (s :: ss) t :=
  .here (List.mem_cons.2 (.inl (List.mem_singleton.1 ht)))

theorem Within.mono (h : Within vs ss t) (hsub : ∀ u ∈ ss, Within vs ss' u) :
    Within vs ss' t := by
  induction h with
  | here hs => exact hsub _ hs
  | inside _ hincluded ht ih => exact .inside ih hincluded ht

theorem Spreads.mono (h : Spreads vs ss name) (hsub : ∀ u ∈ ss, Within vs ss' u) :
    Spreads vs ss' name := by
  obtain ⟨directives, hwithin, hincluded⟩ := h
  exact ⟨directives, hwithin.mono hsub, hincluded⟩

namespace Request

theorem Reaches.of_fragment (hfirst : Spreads vs ss first) (hf : r.fragment? first = some f)
    (h : r.Reaches vs f.selections name) : r.Reaches vs ss name := by
  obtain ⟨second, hsecond, hpath⟩ := h
  exact ⟨first, hfirst, .head ⟨f, hf, hsecond⟩ hpath⟩

theorem Cyclic.of_reaches (hf : r.fragment? name = some f) (h : r.Reaches vs f.selections name) :
    r.Cyclic vs name := by
  obtain ⟨second, hsecond, hpath⟩ := h
  exact .head' ⟨f, hf, hsecond⟩ hpath

theorem Meets.of_fragment (hfirst : Spreads vs ss first) (hf : r.fragment? first = some f)
    (h : r.Meets vs f.selections fault) : r.Meets vs ss fault := by
  cases h with
  | here hwithin hfaulty => exact .inside ⟨first, hfirst, .refl⟩ hf hwithin hfaulty
  | inside hreaches hg hwithin hfaulty =>
    exact .inside (hreaches.of_fragment hfirst hf) hg hwithin hfaulty
  | unknown hreaches hnone => exact .unknown (hreaches.of_fragment hfirst hf) hnone

end Request

end Reaching

/-! ## Reading with given fragments -/

section Given

variable {vs : Variables} {expand : String → Except RequestFault Query} {fault : RequestFault}

/-- What comes out of it if selections are refused. -/
def Blamed (vs : Variables) (expand : String → Except RequestFault Query) (ss : List Selection)
    (fault : RequestFault) : Prop :=
  (∃ s, Within vs ss s ∧ s.Faulty vs fault) ∨
    ∃ name, Spreads vs ss name ∧ expand name = .error fault

theorem Blamed.mono {ss ss' : List Selection} (h : Blamed vs expand ss fault)
    (hsub : ∀ u ∈ ss, Within vs ss' u) : Blamed vs expand ss' fault := by
  rcases h with ⟨s, hwithin, hfaulty⟩ | ⟨name, hspreads, hexpand⟩
  · exact .inl ⟨s, hwithin.mono hsub, hfaulty⟩
  · exact .inr ⟨name, hspreads.mono hsub, hexpand⟩

mutual

theorem blamed_of_toQuery : ∀ {s : Selection}, s.toQuery? vs expand = .error fault →
    Blamed vs expand [s] fault
  | .field alias? name arguments directives selections, h => by
    have hself : Within vs [.field alias? name arguments directives selections]
        (.field alias? name arguments directives selections) := .here List.mem_cons_self
    rw [Selection.toQuery?] at h
    rcases bind_eq_error.1 h with h | ⟨included, hincluded, h⟩
    · exact .inl ⟨_, hself, .directive h⟩
    cases included with
    | false => cases h
    | true =>
      rcases bind_eq_error.1 h with h | ⟨bindings, -, h⟩
      · obtain ⟨a, ha, h⟩ := exists_of_mapM_error h
        rcases bind_eq_error.1 h with h | ⟨v, -, h⟩
        · exact .inl ⟨_, hself, .argument hincluded ha h⟩
        · cases h
      · rcases bind_eq_error.1 h with h | ⟨queries, -, h⟩
        · exact (blamed_of_selectionQueries h).mono fun u hu => .inside hself hincluded hu
        · cases h
  | .spread fragment directives, h => by
    have hself : Within vs [.spread fragment directives] (.spread fragment directives) :=
      .here List.mem_cons_self
    rw [Selection.toQuery?] at h
    rcases bind_eq_error.1 h with h | ⟨included, hincluded, h⟩
    · exact .inl ⟨_, hself, .directive h⟩
    cases included with
    | false => cases h
    | true =>
      refine .inr ⟨fragment, ⟨directives, hself, hincluded⟩, ?_⟩
      cases hexpand : expand fragment with
      | error e =>
        rw [if_pos rfl, hexpand] at h
        cases h
        rfl
      | ok q =>
        rw [if_pos rfl, hexpand] at h
        cases h
  | .inline type? directives selections, h => by
    have hself : Within vs [.inline type? directives selections]
        (.inline type? directives selections) := .here List.mem_cons_self
    rw [Selection.toQuery?] at h
    rcases bind_eq_error.1 h with h | ⟨included, hincluded, h⟩
    · exact .inl ⟨_, hself, .directive h⟩
    cases included with
    | false => cases h
    | true =>
      rcases bind_eq_error.1 h with h | ⟨queries, -, h⟩
      · exact (blamed_of_selectionQueries h).mono fun u hu => .inside hself hincluded hu
      · cases type? <;> cases h

theorem blamed_of_selectionQueries : ∀ {ss : List Selection},
    selectionQueries vs expand ss = .error fault → Blamed vs expand ss fault
  | [], h => by cases h
  | s :: rest, h => by
    rw [selectionQueries] at h
    rcases bind_eq_error.1 h with h | ⟨query?, -, h⟩
    · exact (blamed_of_toQuery h).mono fun u hu => within_head hu
    · rcases bind_eq_error.1 h with h | ⟨queries, -, h⟩
      · exact (blamed_of_selectionQueries h).mono fun u hu => .here (List.mem_cons_of_mem s hu)
      · cases h

end

mutual

theorem toQuery_eq_of_spreads {expand' : String → Except RequestFault Query} : ∀ {s : Selection},
    (∀ name, Spreads vs [s] name → expand name = expand' name) →
      s.toQuery? vs expand = s.toQuery? vs expand'
  | .field alias? name arguments directives selections, h => by
    rw [Selection.toQuery?, Selection.toQuery?]
    cases hincluded : isIncluded vs directives with
    | error f => rfl
    | ok included =>
      cases included with
      | false => rfl
      | true =>
        have hbelow : selectionQueries vs expand selections =
            selectionQueries vs expand' selections :=
          selectionQueries_eq_of_spreads fun name hname =>
            h name (hname.mono fun u hu => .inside (.here List.mem_cons_self) hincluded hu)
        rw [hbelow]
  | .spread fragment directives, h => by
    rw [Selection.toQuery?, Selection.toQuery?]
    cases hincluded : isIncluded vs directives with
    | error f => rfl
    | ok included =>
      cases included with
      | false => rfl
      | true => rw [h fragment ⟨directives, .here List.mem_cons_self, hincluded⟩]
  | .inline type? directives selections, h => by
    rw [Selection.toQuery?, Selection.toQuery?]
    cases hincluded : isIncluded vs directives with
    | error f => rfl
    | ok included =>
      cases included with
      | false => rfl
      | true =>
        have hbelow : selectionQueries vs expand selections =
            selectionQueries vs expand' selections :=
          selectionQueries_eq_of_spreads fun name hname =>
            h name (hname.mono fun u hu => .inside (.here List.mem_cons_self) hincluded hu)
        rw [hbelow]

/-- Only the fragments matter that selections spread. -/
theorem selectionQueries_eq_of_spreads {expand' : String → Except RequestFault Query} :
    ∀ {ss : List Selection}, (∀ name, Spreads vs ss name → expand name = expand' name) →
      selectionQueries vs expand ss = selectionQueries vs expand' ss
  | [], _ => rfl
  | s :: rest, h => by
    rw [selectionQueries, selectionQueries, toQuery_eq_of_spreads fun name hname =>
        h name (hname.mono fun u hu => within_head hu),
      selectionQueries_eq_of_spreads fun name hname =>
        h name (hname.mono fun u hu => .here (List.mem_cons_of_mem s hu))]

end

theorem exists_toQuery_of_mem {ss : List Selection} {qs : List Query}
    (h : selectionQueries vs expand ss = .ok qs) {s : Selection} (hs : s ∈ ss) :
    ∃ query?, s.toQuery? vs expand = .ok query? := by
  induction ss generalizing qs with
  | nil => cases hs
  | cons first rest ih =>
    rw [selectionQueries] at h
    obtain ⟨query?, hfirst, h⟩ := bind_eq_ok.1 h
    obtain ⟨queries, hrest, -⟩ := bind_eq_ok.1 h
    rcases List.mem_cons.1 hs with rfl | hs
    · exact ⟨query?, hfirst⟩
    · exact ih hrest hs

theorem exists_queries_of_toQuery {s : Selection} {query? : Option Query}
    (h : s.toQuery? vs expand = .ok query?) (hincluded : isIncluded vs s.directives = .ok true) :
    ∃ queries, selectionQueries vs expand s.inner = .ok queries := by
  cases s with
  | field alias? name arguments directives selections =>
    rw [Selection.toQuery?] at h
    obtain ⟨included, hsame, h⟩ := bind_eq_ok.1 h
    cases hsame.symm.trans hincluded
    obtain ⟨bindings, -, h⟩ := bind_eq_ok.1 h
    obtain ⟨queries, hqueries, -⟩ := bind_eq_ok.1 h
    exact ⟨queries, hqueries⟩
  | spread fragment directives => exact ⟨[], rfl⟩
  | inline type? directives selections =>
    rw [Selection.toQuery?] at h
    obtain ⟨included, hsame, h⟩ := bind_eq_ok.1 h
    cases hsame.symm.trans hincluded
    obtain ⟨queries, hqueries, -⟩ := bind_eq_ok.1 h
    exact ⟨queries, hqueries⟩

/-- If selections are read, so is all that stands in them. -/
theorem exists_toQuery_of_within {ss : List Selection} {qs : List Query}
    (h : selectionQueries vs expand ss = .ok qs) {s : Selection} (hs : Within vs ss s) :
    ∃ query?, s.toQuery? vs expand = .ok query? := by
  induction hs with
  | here hs => exact exists_toQuery_of_mem h hs
  | inside _ hincluded ht ih =>
    obtain ⟨query?, hquery⟩ := ih
    obtain ⟨queries, hqueries⟩ := exists_queries_of_toQuery hquery hincluded
    exact exists_toQuery_of_mem hqueries ht

/-- If selections are read, so are the fragments that they spread. -/
theorem exists_expand_of_spreads {ss : List Selection} {qs : List Query}
    (h : selectionQueries vs expand ss = .ok qs) {name : String} (hs : Spreads vs ss name) :
    ∃ q, expand name = .ok q := by
  obtain ⟨directives, hwithin, hincluded⟩ := hs
  obtain ⟨query?, hquery⟩ := exists_toQuery_of_within h hwithin
  rw [Selection.toQuery?, hincluded, ok_bind, if_pos rfl] at hquery
  obtain ⟨q, hq, -⟩ := map_eq_ok.1 hquery
  exact ⟨q, hq⟩

end Given

/-! ## Reading fragments -/

/-- What it comes to if a fragment is spread inside the fragments `enclosing`. The fragments that
its own selections spread are entered before it is read, on any number of levels. -/
inductive Request.Enters (r : Request) (vs : Variables) :
    List String → String → Except RequestFault Query → Prop where
  | unknown {enclosing : List String} {name : String} : r.fragment? name = none →
      Enters r vs enclosing name (.error (.unknownFragment name))
  | again {enclosing : List String} {name : String} {f : Fragment} : r.fragment? name = some f →
      name ∈ enclosing → Enters r vs enclosing name (.error (.fragmentCycle name))
  | inside {enclosing : List String} {name : String} {f : Fragment}
      {expand : String → Except RequestFault Query} : r.fragment? name = some f →
      name ∉ enclosing →
      (∀ inner, Spreads vs f.selections inner →
        Enters r vs (name :: enclosing) inner (expand inner)) →
      Enters r vs enclosing name
        (do pure (.narrow f.type (.grouped (← selectionQueries vs expand f.selections))))

/-- What reading selections comes to that stand in the fragments `enclosing`. -/
def Request.Reads (r : Request) (vs : Variables) (enclosing : List String) (ss : List Selection)
    (result : Except RequestFault (List Query)) : Prop :=
  ∃ expand, (∀ name, Spreads vs ss name → r.Enters vs enclosing name (expand name)) ∧
    selectionQueries vs expand ss = result

section Fragments

variable {r : Request} {vs : Variables} {levels : Nat} {enclosing : List String}
  {ss : List Selection} {name : String}

/-- Fragments are entered with a bound on the levels of spreads, if there are as many as there are
fragments that have not been entered. -/
theorem enters_expand (hlevels : r.unentered enclosing ≤ levels) :
    r.Enters vs enclosing name (r.expand vs levels enclosing name) := by
  induction levels using Nat.strong_induction_on generalizing enclosing name with
  | h levels ih =>
    cases hf : r.fragment? name with
    | none =>
      rw [expand_of_unknown hf]
      exact .unknown hf
    | some f =>
      by_cases hname : name ∈ enclosing
      · rw [expand_of_mem hf hname]
        exact .again hf hname
      · have hlt := unentered_cons_lt hf hname
        cases levels with
        | zero => omega
        | succ levels =>
          rw [expand_succ hf hname]
          exact .inside hf hname fun inner _ => ih levels (Nat.lt_succ_self _) (by omega)

/-- The bound makes no difference to what entering a fragment comes to. -/
theorem Request.Enters.expand_eq {result : Except RequestFault Query}
    (h : r.Enters vs enclosing name result) (hlevels : r.unentered enclosing ≤ levels) :
    r.expand vs levels enclosing name = result := by
  induction h generalizing levels with
  | unknown hf => exact expand_of_unknown hf
  | again hf hname => exact expand_of_mem hf hname
  | inside hf hname _ ih =>
    have hlt := unentered_cons_lt hf hname
    cases levels with
    | zero => omega
    | succ levels =>
      rw [expand_succ hf hname, selectionQueries_eq_of_spreads fun inner hinner =>
        ih inner hinner (show r.unentered (_ :: _) ≤ levels by omega)]

/-- Reading selections comes to what it does with a bound. -/
theorem reads_iff {result : Except RequestFault (List Query)}
    (hlevels : r.unentered enclosing ≤ levels) :
    r.Reads vs enclosing ss result ↔
      selectionQueries vs (r.expand vs levels enclosing) ss = result := by
  constructor
  · rintro ⟨expand, henters, rfl⟩
    exact selectionQueries_eq_of_spreads fun name hname => (henters name hname).expand_eq hlevels
  · exact fun h => ⟨r.expand vs levels enclosing, fun name _ => enters_expand hlevels, h⟩

/-- Selections that are refused are so for a fault that is met, or for a fragment among the
enclosing ones or that leads back to itself. -/
theorem meets_or_cyclic {fault : RequestFault} (hlevels : r.unentered enclosing ≤ levels)
    (h : selectionQueries vs (r.expand vs levels enclosing) ss = .error fault) :
    r.Meets vs ss fault ∨ ∃ name, fault = .fragmentCycle name ∧ r.Reaches vs ss name ∧
      (name ∈ enclosing ∨ r.Cyclic vs name) := by
  induction levels using Nat.strong_induction_on generalizing enclosing ss with
  | h levels ih =>
    rcases blamed_of_selectionQueries h with ⟨s, hwithin, hfaulty⟩ | ⟨first, hfirst, hexpand⟩
    · exact .inl (.here hwithin hfaulty)
    have hreaches : r.Reaches vs ss first := ⟨first, hfirst, .refl⟩
    cases hf : r.fragment? first with
    | none =>
      cases (expand_of_unknown hf).symm.trans hexpand
      exact .inl (.unknown hreaches hf)
    | some f =>
      by_cases hmem : first ∈ enclosing
      · cases (expand_of_mem hf hmem).symm.trans hexpand
        exact .inr ⟨first, rfl, hreaches, .inl hmem⟩
      obtain ⟨levels', rfl, henough, hbody⟩ := expand_of_enough hlevels hf hmem
      rw [hbody] at hexpand
      rcases bind_eq_error.1 hexpand with hqueries | ⟨queries, -, hqueries⟩
      · rcases ih levels' (Nat.lt_succ_self _) henough hqueries with
          hmeets | ⟨name, rfl, hname, hcycle⟩
        · exact .inl (hmeets.of_fragment hfirst hf)
        · refine .inr ⟨name, rfl, hname.of_fragment hfirst hf, ?_⟩
          rcases hcycle with hmem | hcyclic
          · rcases List.mem_cons.1 hmem with rfl | hmem
            · exact .inr (.of_reaches hf hname)
            · exact .inl hmem
          · exact .inr hcyclic
      · cases hqueries

/-- Selections that stand in the fragments `enclosing` are read. -/
def Succeeds (r : Request) (vs : Variables) (enclosing : List String) (ss : List Selection) :
    Prop :=
  ∃ levels queries, r.unentered enclosing ≤ levels ∧
    selectionQueries vs (r.expand vs levels enclosing) ss = .ok queries

/-- A fragment that is spread in selections that are read is new there, and read. -/
theorem Succeeds.of_spreads (h : Succeeds r vs enclosing ss) (hs : Spreads vs ss name) :
    ∃ f, r.fragment? name = some f ∧ name ∉ enclosing ∧
      Succeeds r vs (name :: enclosing) f.selections := by
  obtain ⟨levels, qs, hlevels, hqs⟩ := h
  obtain ⟨q, hq⟩ := exists_expand_of_spreads hqs hs
  cases hf : r.fragment? name with
  | none => cases (expand_of_unknown hf).symm.trans hq
  | some f =>
    by_cases hname : name ∈ enclosing
    · cases (expand_of_mem hf hname).symm.trans hq
    · obtain ⟨levels', -, henough, hexpand⟩ := expand_of_enough hlevels hf hname
      rw [hexpand] at hq
      obtain ⟨queries, hqueries, -⟩ := bind_eq_ok.1 hq
      exact ⟨f, rfl, hname, levels', queries, henough, hqueries⟩

/-- So is a fragment that they lead to. -/
theorem Succeeds.of_reaches (h : Succeeds r vs enclosing ss) (hname : r.Reaches vs ss name) :
    ∃ f enclosing', r.fragment? name = some f ∧ enclosing ⊆ enclosing' ∧ name ∉ enclosing' ∧
      Succeeds r vs (name :: enclosing') f.selections := by
  obtain ⟨first, hfirst, hpath⟩ := hname
  induction hpath with
  | refl =>
    obtain ⟨f, hf, hnew, hread⟩ := h.of_spreads hfirst
    exact ⟨f, enclosing, hf, List.Subset.refl _, hnew, hread⟩
  | @tail a b _ hab ih =>
    obtain ⟨f, enclosing', hf, hsub, -, hread⟩ := ih
    obtain ⟨f', hf', hspreads⟩ := hab
    cases hf.symm.trans hf'
    obtain ⟨g, hg, hnew, hread'⟩ := hread.of_spreads hspreads
    exact ⟨g, a :: enclosing', hg, fun c hc => List.mem_cons_of_mem a (hsub hc), hnew, hread'⟩

/-- No fragment that selections which are read lead to leads back to itself. -/
theorem Succeeds.not_cyclic (h : Succeeds r vs enclosing ss) (hname : r.Reaches vs ss name) :
    ¬ r.Cyclic vs name := by
  intro hcyclic
  obtain ⟨f, enclosing', hf, -, -, hread⟩ := h.of_reaches hname
  obtain ⟨second, ⟨f', hf', hsecond⟩, hpath⟩ := Relation.TransGen.head'_iff.1 hcyclic
  cases hf.symm.trans hf'
  -- the fragment is entered a second time, inside itself
  obtain ⟨-, enclosing'', -, hsub, hnew, -⟩ := hread.of_reaches ⟨second, hsecond, hpath⟩
  exact hnew (hsub List.mem_cons_self)

/-- Spreads are nested no deeper than there are fragments that have not been entered. -/
theorem Succeeds.length_le (h : Succeeds r vs enclosing ss) {names : List String}
    (hchain : names.IsChain (r.Leads vs)) (hfirst : ∀ name ∈ names.head?, Spreads vs ss name) :
    names.length ≤ r.unentered enclosing := by
  induction names generalizing enclosing ss with
  | nil => exact Nat.zero_le _
  | cons name rest ih =>
    obtain ⟨f, hf, hnew, hread⟩ := h.of_spreads (hfirst name rfl)
    have hrest := ih hread hchain.of_cons fun next hnext => by
      obtain ⟨f', hf', hspreads⟩ := (List.isChain_cons.1 hchain).1 next hnext
      cases hf.symm.trans hf'
      exact hspreads
    have hlt := unentered_cons_lt hf hnew
    rw [List.length_cons]
    omega

end Fragments

/-! ## Faults that are no cycles -/

section Faults

variable {vs : Variables} {fault : RequestFault}

mutual

theorem undefined_of_substitute : ∀ {v : Value}, vs.substitute v = .error fault →
    ∃ name, fault = .undefinedVariable name
  | .reference name, h => by
    rw [Variables.substitute] at h
    split at h
    · cases h
    · cases h
      exact ⟨name, rfl⟩
  | .list values, h => by
    rw [Variables.substitute, map_eq_error] at h
    exact undefined_of_substituteElements h
  | .object members, h => by
    rw [Variables.substitute, map_eq_error] at h
    exact undefined_of_substituteMembers h
  | .absent, h | .null, h | .int _, h | .float _, h | .boolean _, h | .string _, h | .id _, h
  | .enum _, h => by cases h

theorem undefined_of_substituteElements : ∀ {values : List Value},
    vs.substituteElements values = .error fault → ∃ name, fault = .undefinedVariable name
  | [], h => by cases h
  | v :: rest, h => by
    rw [Variables.substituteElements] at h
    rcases bind_eq_error.1 h with h | ⟨first, -, h⟩
    · exact undefined_of_substitute h
    · rcases bind_eq_error.1 h with h | ⟨others, -, h⟩
      · exact undefined_of_substituteElements h
      · cases h

theorem undefined_of_substituteMembers : ∀ {members : List (String × Value)},
    vs.substituteMembers members = .error fault → ∃ name, fault = .undefinedVariable name
  | [], h => by cases h
  | (k, v) :: rest, h => by
    rw [Variables.substituteMembers] at h
    rcases bind_eq_error.1 h with h | ⟨first, -, h⟩
    · exact undefined_of_substitute h
    · rcases bind_eq_error.1 h with h | ⟨others, -, h⟩
      · exact undefined_of_substituteMembers h
      · cases h

end

theorem isIncluded_error : ∀ {ds : List Directive}, isIncluded vs ds = .error fault →
    (∃ name, fault = .undefinedVariable name) ∨ ∃ directive, fault = .conditionMissing directive
  | [], h => by cases h
  | d :: rest, h => by
    rw [isIncluded] at h
    split at h
    · exact isIncluded_error h
    · rcases bind_eq_error.1 h with h | ⟨value?, -, h⟩
      · cases harg : d.arguments.find? (·.1 = "if") with
        | none =>
          rw [harg] at h
          cases h
        | some a =>
          rw [harg, Option.mapM_some, map_eq_error] at h
          exact .inl (undefined_of_substitute h)
      · split at h
        · split at h
          · exact isIncluded_error h
          · cases h
        · cases h
          exact .inr ⟨_, rfl⟩

/-- What is met besides cycles is told by a variable, a directive or a fragment. -/
theorem Request.Meets.cases {r : Request} {ss : List Selection} (h : r.Meets vs ss fault) :
    (∃ name, fault = .undefinedVariable name) ∨ (∃ directive, fault = .conditionMissing directive) ∨
      ∃ name, fault = .unknownFragment name := by
  have hfaulty {s : Selection} (hs : s.Faulty vs fault) :
      (∃ name, fault = .undefinedVariable name) ∨
        ∃ directive, fault = .conditionMissing directive := by
    cases hs with
    | directive hincluded => exact isIncluded_error hincluded
    | argument _ _ hvalue => exact .inl (undefined_of_substitute hvalue)
  cases h with
  | here _ hs => exact (hfaulty hs).imp_right .inl
  | inside _ _ _ hs => exact (hfaulty hs).imp_right .inl
  | unknown => exact .inr (.inr ⟨_, rfl⟩)

/-- It is not told in the words for a cycle. -/
theorem Request.Meets.message_ne {r : Request} {ss : List Selection} (h : r.Meets vs ss fault)
    (name : String) : fault.message ≠ "Fragment cycle starting at '" ++ name ++ "'" := by
  intro hmessage
  have hfirst : fault.message.toList.head? = some 'F' := by
    rw [hmessage]
    simp
  rcases h.cases with ⟨other, rfl⟩ | ⟨directive, rfl⟩ | ⟨other, rfl⟩
  · change ("Variable '" ++ other ++ "' is not defined").toList.head? = some 'F' at hfirst
    simp at hfirst
  · change ("Directive '@" ++ directive ++ "' requires a Boolean argument 'if'").toList.head? =
      some 'F' at hfirst
    simp at hfirst
  · change ("Unknown fragment '" ++ other ++ "'").toList.head? = some 'F' at hfirst
    simp at hfirst

end Faults

namespace Request

/-- Reading selections has an end, in whatever fragments they stand, and the bound on the levels of
spreads makes no difference to it. Only a fragment that the selections lead to, and whose own lead
back to it, is refused for a cycle; where there is such a fragment, reading fails, for a cycle
unless another fault was met; and where it goes right, spreads are nested no deeper than there are
fragments. -/
theorem read_refuses_cycles (r : Request) (vs : Variables) (ss : List Selection) :
    (∀ enclosing, ∃ result, r.Reads vs enclosing ss result) ∧
      (∀ result, r.Reads vs [] ss result ↔
        selectionQueries vs (r.expand vs r.fragments.length []) ss = result) ∧
      (∀ fault name, r.Reads vs [] ss (.error fault) →
        fault.message = "Fragment cycle starting at '" ++ name ++ "'" →
          r.Reaches vs ss name ∧ r.Cyclic vs name) ∧
      (∀ name, r.Reaches vs ss name → r.Cyclic vs name →
        ∃ fault, r.Reads vs [] ss (.error fault) ∧
          ((∃ other, fault = .fragmentCycle other) ∨ r.Meets vs ss fault)) ∧
      ∀ queries, r.Reads vs [] ss (.ok queries) →
        ∀ names : List String, names.IsChain (r.Leads vs) →
          (∀ name ∈ names.head?, Spreads vs ss name) → names.length ≤ r.fragments.length := by
  have henough : r.unentered [] ≤ r.fragments.length := List.countP_le_length
  have hreads (result : Except RequestFault (List Query)) : r.Reads vs [] ss result ↔
      selectionQueries vs (r.expand vs r.fragments.length []) ss = result := reads_iff henough
  refine ⟨fun enclosing => ⟨_, (reads_iff le_rfl).2 rfl⟩, hreads,
    fun fault name hread hmessage => ?_, fun name hreaches hcyclic => ?_,
    fun queries hread names hchain hfirst => ?_⟩
  · rcases meets_or_cyclic henough ((hreads _).1 hread) with hmeets | ⟨cycle, rfl, hreaches, hcycle⟩
    · exact absurd hmessage (hmeets.message_ne name)
    · change "Fragment cycle starting at '" ++ cycle ++ "'" = _ at hmessage
      rw [String.append_left_inj, String.append_right_inj] at hmessage
      subst hmessage
      exact ⟨hreaches, hcycle.resolve_left List.not_mem_nil⟩
  · cases hqueries : selectionQueries vs (r.expand vs r.fragments.length []) ss with
    | ok queries => exact absurd hcyclic (Succeeds.not_cyclic ⟨_, _, henough, hqueries⟩ hreaches)
    | error fault =>
      refine ⟨fault, (hreads _).2 hqueries, ?_⟩
      rcases meets_or_cyclic henough hqueries with hmeets | ⟨cycle, rfl, -, -⟩
      · exact .inr hmeets
      · exact .inl ⟨cycle, rfl⟩
  · exact (Succeeds.length_le ⟨_, _, henough, (hreads _).1 hread⟩ hchain hfirst).trans henough

end Request

end MappedQuery.Document
