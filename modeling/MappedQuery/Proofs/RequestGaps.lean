import MappedQuery.Proofs.Sequencing
import MappedQuery.Request.Selection

/-!
# Requests with a gap

A request in which a part of a selection set stands somewhere is a request with a gap, the spread of
a name that is new in it, and with the gap filled. As a fragment of that name the part is read as
it is read in a fragment in place of the gap: what is entered in the one reading and not in the
other is the named fragment, which no spread leads back to before another fragment is entered a
second time.
-/
namespace MappedQuery.Document

mutual

/-- A selection with other selections in place of the spreads of a name. -/
def Selection.fill (gap : String) (part : List Selection) : Selection → List Selection
  | .field alias? name arguments directives selections =>
    [.field alias? name arguments directives (fillAll gap part selections)]
  | .spread name directives =>
    if name = gap ∧ directives.isEmpty then part else [.spread name directives]
  | .inline type? directives selections =>
    [.inline type? directives (fillAll gap part selections)]

def fillAll (gap : String) (part : List Selection) : List Selection → List Selection
  | [] => []
  | s :: rest => s.fill gap part ++ fillAll gap part rest

end

/-- A request with other selections in place of the spreads of a name. -/
def Request.fill (r : Request) (gap : String) (part : List Selection) : Request where
  operations := r.operations.map fun o => { o with selections := fillAll gap part o.selections }
  fragments := r.fragments.map fun f => { f with selections := fillAll gap part f.selections }

section Reading

variable {vs : Variables} {expand : String → Except RequestFault Query}

theorem selectionQueries_append (as bs : List Selection) :
    selectionQueries vs expand (as ++ bs) = (do
      let qs ← selectionQueries vs expand as
      pure (qs ++ (← selectionQueries vs expand bs))) := by
  induction as with
  | nil =>
    rw [List.nil_append, selectionQueries]
    cases selectionQueries vs expand bs <;> rfl
  | cons s rest ih =>
    simp only [List.cons_append, selectionQueries, ih, bind_assoc, pure_bind, List.append_assoc]

theorem selectionQueries_singleton (s : Selection) :
    selectionQueries vs expand [s] = (do pure (← s.toQuery? vs expand).toList) := by
  rw [selectionQueries, selectionQueries]
  cases s.toQuery? vs expand with
  | error f => rfl
  | ok q? => exact congrArg Except.ok (List.append_nil _)

theorem selectionQueries_inline (type? : Option String) (ss : List Selection) :
    selectionQueries vs expand [.inline type? [] ss] = (do
      let qs ← selectionQueries vs expand ss
      match type? with
      | some type => pure [.narrow type (.grouped qs)]
      | none => pure [.grouped qs]) := by
  rw [selectionQueries_singleton, Selection.toQuery?, isIncluded]
  cases selectionQueries vs expand ss with
  | error f => rfl
  | ok qs => cases type? <;> rfl

end Reading

mutual

theorem fill_self (gap : String) : ∀ s : Selection, s.fill gap [.spread gap []] = [s]
  | .field alias? name arguments directives below => by
    rw [Selection.fill, fillAll_self gap below]
  | .spread name directives => by
    rw [Selection.fill]
    split
    · rename_i h
      rw [h.1, List.isEmpty_iff.1 h.2]
    · rfl
  | .inline type? directives inner => by
    rw [Selection.fill, fillAll_self gap inner]

/-- A gap that is filled with itself stays a gap. -/
theorem fillAll_self (gap : String) : ∀ ss : List Selection,
    fillAll gap [.spread gap []] ss = ss
  | [] => rfl
  | s :: rest => by
    rw [fillAll, fill_self gap s, fillAll_self gap rest]
    rfl

end

theorem fragment?_fill (r : Request) (gap : String) (x : List Selection) (name : String) :
    (r.fill gap x).fragment? name = (r.fragment? name).map fun f =>
      { f with selections := fillAll gap x f.selections } := by
  rw [Request.fragment?, Request.fill, ← List.map_reverse, List.find?_map]
  rfl

section Expand

variable {r : Request} {vs : Variables} {levels : Nat} {enclosing : List String} {name : String}
  {f : Fragment}

theorem expand_of_unknown (h : r.fragment? name = none) :
    r.expand vs levels enclosing name = .error (.unknownFragment name) := by
  rw [Request.expand.eq_def]
  dsimp only
  rw [h]

theorem expand_of_mem (h : r.fragment? name = some f) (hmem : name ∈ enclosing) :
    r.expand vs levels enclosing name = .error (.fragmentCycle name) := by
  rw [Request.expand.eq_def]
  dsimp only
  rw [h]
  exact if_pos hmem

theorem expand_zero (h : r.fragment? name = some f) :
    r.expand vs 0 enclosing name = .error (.fragmentCycle name) := by
  rw [Request.expand.eq_def]
  dsimp only
  rw [h]
  exact ite_self _

theorem expand_succ (h : r.fragment? name = some f) (hmem : name ∉ enclosing) :
    r.expand vs (levels + 1) enclosing name = (do
      pure (.narrow f.type (.grouped
        (← selectionQueries vs (r.expand vs levels (name :: enclosing)) f.selections)))) := by
  rw [Request.expand.eq_def]
  dsimp only
  rw [h]
  exact if_neg hmem

theorem exists_narrow_of_expand {q : Query} (h : r.expand vs levels enclosing name = .ok q) :
    ∃ type child, q = .narrow type child := by
  cases hf : r.fragment? name with
  | none => cases (expand_of_unknown hf).symm.trans h
  | some f =>
    by_cases hmem : name ∈ enclosing
    · cases (expand_of_mem hf hmem).symm.trans h
    · cases levels with
      | zero => cases (expand_zero hf).symm.trans h
      | succ levels =>
        obtain ⟨qs, -, hq⟩ := bind_eq_ok.1 ((expand_succ hf hmem).symm.trans h)
        exact ⟨_, _, (pure_eq_ok.1 hq).symm⟩

end Expand

theorem operation_fill (r : Request) (gap : String) (x : List Selection)
    (operationName? : Option String) :
    (r.fill gap x).operation operationName? = (fun o : Operation =>
      { o with selections := fillAll gap x o.selections }) <$> r.operation operationName? := by
  cases operationName? with
  | some name =>
    have hfind : (r.fill gap x).operations.find? (·.name? = some name) =
        (r.operations.find? (·.name? = some name)).map fun o =>
          { o with selections := fillAll gap x o.selections } := by
      rw [Request.fill, List.find?_map]
      rfl
    rw [Request.operation, Request.operation, hfind]
    cases r.operations.find? (·.name? = some name) with
    | none => rfl
    | some o => rfl
  | none =>
    rw [Request.operation, Request.operation, Request.fill]
    cases r.operations with
    | nil => rfl
    | cons o rest => cases rest <;> rfl

section Named

mutual

/-- Whether a selection spreads a fragment, itself or within. -/
def Selection.spreads (name : String) : Selection → Bool
  | .field _ _ _ _ below => someSpread name below
  | .spread fragment _ => fragment = name
  | .inline _ _ inner => someSpread name inner

def someSpread (name : String) : List Selection → Bool
  | [] => false
  | s :: rest => s.spreads name || someSpread name rest

end

/-- The gap of a request is spread without directives, and in one definition only. -/
structure Request.HasOneGap (r : Request) (gap : String) : Prop where
  bare_operations : ∀ o ∈ r.operations, someSpread gap (fillAll gap [] o.selections) = false
  bare_fragments : ∀ f ∈ r.fragments, someSpread gap (fillAll gap [] f.selections) = false
  no_operation : ∀ f ∈ r.fragments, someSpread gap f.selections = true →
    ∀ o ∈ r.operations, someSpread gap o.selections = false
  one_fragment : ∀ f ∈ r.fragments, someSpread gap f.selections = true →
    ∀ g ∈ r.fragments, someSpread gap g.selections = true → g.name = f.name

variable {r : Request} {vs : Variables} {gap type : String} {part : List Selection}
  {expand expand' : String → Except RequestFault Query}

theorem someSpread_append (name : String) (as bs : List Selection) :
    someSpread name (as ++ bs) = (someSpread name as || someSpread name bs) := by
  induction as with
  | nil => rfl
  | cons s rest ih => rw [List.cons_append, someSpread, someSpread, ih, Bool.or_assoc]

theorem someSpread_singleton (name : String) (s : Selection) :
    someSpread name [s] = s.spreads name := Bool.or_false _

mutual

/-- A selection is read alike with the gap as a named fragment and with the part in its place. -/
theorem selectionQueries_fill_named (hexpand : ∀ name ≠ gap, expand name = expand' name) :
    ∀ {s : Selection}, someSpread gap (s.fill gap []) = false →
      (s.spreads gap = true → expand gap = (do
        pure (.narrow type (.grouped (← selectionQueries vs expand' part))))) →
      selectionQueries vs expand [s] =
        selectionQueries vs expand' (s.fill gap [.inline (some type) [] part])
  | .field alias? name arguments directives below, hbare, hgap => by
    rw [Selection.fill, someSpread_singleton, Selection.spreads] at hbare
    rw [Selection.spreads] at hgap
    rw [Selection.fill, selectionQueries_singleton, selectionQueries_singleton, Selection.toQuery?,
      Selection.toQuery?, selectionQueries_fillAll_named hexpand hbare hgap]
  | .spread name directives, hbare, hgap => by
    rw [Selection.fill] at hbare ⊢
    by_cases hname : name = gap
    · subst hname
      cases directives with
      | nil =>
        have hspread := hgap (decide_eq_true rfl)
        rw [if_pos ⟨rfl, rfl⟩, selectionQueries_inline, selectionQueries_singleton,
          Selection.toQuery?, isIncluded, hspread]
        cases selectionQueries vs expand' part <;> rfl
      | cons d rest => simp [someSpread, Selection.spreads] at hbare
    · rw [if_neg fun h => hname h.1, selectionQueries_singleton, selectionQueries_singleton,
        Selection.toQuery?, Selection.toQuery?, hexpand name hname]
  | .inline type? directives inner, hbare, hgap => by
    rw [Selection.fill, someSpread_singleton, Selection.spreads] at hbare
    rw [Selection.spreads] at hgap
    rw [Selection.fill, selectionQueries_singleton, selectionQueries_singleton, Selection.toQuery?,
      Selection.toQuery?, selectionQueries_fillAll_named hexpand hbare hgap]

theorem selectionQueries_fillAll_named (hexpand : ∀ name ≠ gap, expand name = expand' name) :
    ∀ {ss : List Selection}, someSpread gap (fillAll gap [] ss) = false →
      (someSpread gap ss = true → expand gap = (do
        pure (.narrow type (.grouped (← selectionQueries vs expand' part))))) →
      selectionQueries vs expand ss =
        selectionQueries vs expand' (fillAll gap [.inline (some type) [] part] ss)
  | [], _, _ => rfl
  | s :: rest, hbare, hgap => by
    rw [fillAll, someSpread_append, Bool.or_eq_false_iff] at hbare
    rw [fillAll, selectionQueries_append,
      ← selectionQueries_fill_named hexpand hbare.1 fun h => hgap (by rw [someSpread, h]; rfl),
      ← selectionQueries_fillAll_named hexpand hbare.2
        fun h => hgap (by rw [someSpread, h, Bool.or_true]),
      ← selectionQueries_append]
    rfl

end

mutual

theorem fill_of_not_spreads {x : List Selection} : ∀ {s : Selection}, s.spreads gap = false →
    s.fill gap x = [s]
  | .field alias? name arguments directives below, h => by
    rw [Selection.spreads] at h
    rw [Selection.fill, fillAll_of_not_spreads h]
  | .spread name directives, h => by
    rw [Selection.fill, if_neg fun hname => of_decide_eq_false h hname.1]
  | .inline type? directives inner, h => by
    rw [Selection.spreads] at h
    rw [Selection.fill, fillAll_of_not_spreads h]

theorem fillAll_of_not_spreads {x : List Selection} : ∀ {ss : List Selection},
    someSpread gap ss = false → fillAll gap x ss = ss
  | [], _ => rfl
  | s :: rest, h => by
    rw [someSpread, Bool.or_eq_false_iff] at h
    rw [fillAll, fill_of_not_spreads h.1, fillAll_of_not_spreads h.2]
    rfl

end

/-- Selections that spread other fragments only are read alike. -/
theorem selectionQueries_congr (hexpand : ∀ name ≠ gap, expand name = expand' name)
    {ss : List Selection} (h : someSpread gap ss = false) :
    selectionQueries vs expand ss = selectionQueries vs expand' ss := by
  have hread : selectionQueries vs expand ss =
      selectionQueries vs expand' (fillAll gap [.inline (some gap) [] []] ss) :=
    selectionQueries_fillAll_named hexpand (by rwa [fillAll_of_not_spreads h])
      fun hspread => by simp [h] at hspread
  rwa [fillAll_of_not_spreads h] at hread

/-- How many of the fragments of a request are not among the enclosing ones. -/
def Request.unentered (r : Request) (enclosing : List String) : Nat :=
  r.fragments.countP fun f => f.name ∉ enclosing

theorem unentered_cons_lt {enclosing : List String} {name : String} {f : Fragment}
    (hf : r.fragment? name = some f) (hname : name ∉ enclosing) :
    r.unentered (name :: enclosing) < r.unentered enclosing := by
  have hmem : f ∈ r.fragments := List.mem_reverse.1 (List.mem_of_find?_eq_some hf)
  obtain rfl : f.name = name := by simpa using List.find?_some hf
  obtain ⟨front, back, hfragments⟩ := List.append_of_mem hmem
  have hfewer (fs : List Fragment) : (fs.countP fun g => g.name ∉ f.name :: enclosing) ≤
      fs.countP fun g => g.name ∉ enclosing :=
    List.countP_mono_left fun g _ hg => by
      simp only [List.mem_cons, not_or, decide_eq_true_eq] at hg ⊢
      exact hg.2
  have hfront := hfewer front
  have hback := hfewer back
  simp only [Request.unentered, hfragments, List.countP_append, List.countP_cons]
  rw [if_neg (by simp), if_pos (by simpa using hname)]
  omega

/-- The request with the gap as a named fragment. -/
def Request.named (r : Request) (front back : List Fragment) (f : Fragment) : Request :=
  { r with fragments := front ++ f :: back }

variable {front back : List Fragment}

theorem fragment?_named (hfragments : r.fragments = front ++ back) {f : Fragment}
    (hnew : r.fragment? f.name = none) (name : String) :
    (r.named front back f).fragment? name =
      if name = f.name then some f else r.fragment? name := by
  rw [Request.fragment?, hfragments, List.reverse_append, List.find?_append] at hnew
  rw [Request.fragment?, Request.fragment?, Request.named, hfragments, List.reverse_append,
    List.reverse_append, List.reverse_cons, List.find?_append, List.find?_append, List.find?_append]
  split
  · rename_i hname
    subst hname
    rw [(Option.or_eq_none_iff.1 hnew).1]
    simp
  · rename_i hname
    rw [List.find?_singleton, if_neg (by simpa using fun h => hname h.symm), Option.or_none]

section Expand

variable {levels levels' : Nat} {enclosing enclosing' : List String} {name : String} {f : Fragment}

/-- There is a level left for a fragment that is not among the enclosing ones. -/
theorem expand_of_enough {r : Request} (hlevels : r.unentered enclosing ≤ levels)
    (hf : r.fragment? name = some f) (hname : name ∉ enclosing) :
    ∃ levels', levels = levels' + 1 ∧ r.unentered (name :: enclosing) ≤ levels' ∧
      r.expand vs levels enclosing name = (do
        pure (.narrow f.type (.grouped
          (← selectionQueries vs (r.expand vs levels' (name :: enclosing)) f.selections)))) := by
  have hlt := unentered_cons_lt hf hname
  obtain ⟨levels', rfl⟩ := Nat.exists_eq_add_of_lt (show 0 < levels by omega)
  rw [Nat.zero_add] at *
  exact ⟨levels', rfl, by omega, expand_succ hf hname⟩

/-- Fragments are read alike with the gap as a named fragment and with the part in its place,
whatever they are spread in, as long as there are levels enough. Where the gap is among the
enclosing fragments, the fragments it stands in are, so that it is not entered a second time. -/
theorem expand_named (hfragments : r.fragments = front ++ back) (hnew : r.fragment? gap = none)
    (hone : r.HasOneGap gap) (hpart : someSpread gap part = false)
    (hlevels : (r.named front back ⟨gap, type, part⟩).unentered enclosing ≤ levels)
    (hlevels' : (r.fill gap [.inline (some type) [] part]).unentered enclosing' ≤ levels')
    (hsame : ∀ name ≠ gap, (name ∈ enclosing ↔ name ∈ enclosing'))
    (hgap : gap ∈ enclosing → ∀ f ∈ r.fragments, someSpread gap f.selections = true →
      f.name ∈ enclosing) (hname : name ≠ gap) :
    (r.named front back ⟨gap, type, part⟩).expand vs levels enclosing name =
      (r.fill gap [.inline (some type) [] part]).expand vs levels' enclosing' name := by
  have hfind (name : String) : (r.named front back ⟨gap, type, part⟩).fragment? name =
      if name = gap then some ⟨gap, type, part⟩ else r.fragment? name :=
    fragment?_named hfragments hnew name
  have hfilled (name : String) := fragment?_fill r gap [.inline (some type) [] part] name
  induction levels' using Nat.strongRecOn generalizing levels enclosing enclosing' name with
  | ind levels' ih =>
    have hfound := (hfind name).trans (if_neg hname)
    have hfound' := hfilled name
    cases hf : r.fragment? name with
    | none =>
      rw [hf] at hfound hfound'
      rw [expand_of_unknown hfound, expand_of_unknown hfound']
    | some f =>
      rw [hf] at hfound hfound'
      have hmemf : f ∈ r.fragments := List.mem_reverse.1 (List.mem_of_find?_eq_some hf)
      obtain rfl : f.name = name := by simpa using List.find?_some hf
      by_cases hmem : f.name ∈ enclosing
      · rw [expand_of_mem hfound hmem, expand_of_mem hfound' ((hsame _ hname).1 hmem)]
      · have hmem' : f.name ∉ enclosing' := fun h => hmem ((hsame _ hname).2 h)
        obtain ⟨inner, -, hinner, hexpand⟩ := expand_of_enough hlevels hfound hmem
        obtain ⟨inner', rfl, hinner', hexpand'⟩ := expand_of_enough hlevels' hfound' hmem'
        have hcons (name : String) (hname : name ≠ gap) :
            name ∈ f.name :: enclosing ↔ name ∈ f.name :: enclosing' := by
          rw [List.mem_cons, List.mem_cons, hsame name hname]
        have hbody : selectionQueries vs ((r.named front back ⟨gap, type, part⟩).expand vs inner
              (f.name :: enclosing)) f.selections =
            selectionQueries vs ((r.fill gap [.inline (some type) [] part]).expand vs inner'
              (f.name :: enclosing')) (fillAll gap [.inline (some type) [] part] f.selections) := by
          refine selectionQueries_fillAll_named (fun other hother => ?_)
            (hone.bare_fragments f hmemf) fun hspread => ?_
          · refine ih inner' (Nat.lt_succ_self _) hinner hinner' hcons (fun h => ?_) hother
            intro g hg hspread
            rcases List.mem_cons.1 h with h | h
            · exact absurd h.symm hname
            · exact List.mem_cons_of_mem _ (hgap h g hg hspread)
          · -- the gap is not entered yet, or this fragment would be
            have hnot : gap ∉ f.name :: enclosing := fun h => by
              rcases List.mem_cons.1 h with h | h
              · exact hname h.symm
              · exact hmem (hgap h f hmemf hspread)
            obtain ⟨last, -, hlast, hexpandGap⟩ := expand_of_enough hinner
              ((hfind gap).trans (if_pos rfl)) hnot
            rw [hexpandGap]
            dsimp only
            rw [selectionQueries_congr (fun other hother => ?_) hpart]
            refine ih inner' (Nat.lt_succ_self _) hlast hinner' (fun name hname => ?_) ?_ hother
            · rw [List.mem_cons, hcons name hname]
              exact or_iff_right hname
            · intro _ g hg hspread'
              rw [hone.one_fragment f hmemf hspread g hg hspread']
              exact List.mem_cons_of_mem _ List.mem_cons_self
        rw [hexpand, hexpand', hbody]

end Expand

theorem mem_of_operation {operationName? : Option String} {o : Operation}
    (h : r.operation operationName? = .ok o) : o ∈ r.operations := by
  unfold Request.operation at h
  split at h
  · split at h
    · rename_i hfind
      cases h
      exact List.mem_of_find?_eq_some hfind
    · cases h
  · split at h
    · cases h
    · rename_i hone
      cases h
      rw [hone]
      exact List.mem_singleton_self _
    · cases h

/-- A request with the gap as a named fragment is read as with a fragment in place of the gap. -/
theorem toQuery_named (hfragments : r.fragments = front ++ back) (hnew : r.fragment? gap = none)
    (hone : r.HasOneGap gap) (hpart : someSpread gap part = false)
    (operationName? : Option String) (variables? : Option Json) :
    (r.named front back ⟨gap, type, part⟩).toQuery operationName? variables? =
      (r.fill gap [.inline (some type) [] part]).toQuery operationName? variables? := by
  have hoperation : (r.named front back ⟨gap, type, part⟩).operation operationName? =
      r.operation operationName? := rfl
  rw [Request.toQuery, Request.toQuery, hoperation, operation_fill]
  cases ho : r.operation operationName? with
  | error f => rfl
  | ok o =>
    have hmem := mem_of_operation ho
    rw [map_ok, ok_bind, ok_bind]
    cases o.kind with
    | mutation => rfl
    | subscription => rfl
    | query =>
      refine bind_congr fun vs => ?_
      have henough {r : Request} : r.unentered [] ≤ r.fragments.length := List.countP_le_length
      have hexpand (name : String) (hname : name ≠ gap) :
          (r.named front back ⟨gap, type, part⟩).expand vs
              (r.named front back ⟨gap, type, part⟩).fragments.length [] name =
            (r.fill gap [.inline (some type) [] part]).expand vs
              (r.fill gap [.inline (some type) [] part]).fragments.length [] name :=
        expand_named hfragments hnew hone hpart henough henough (fun _ _ => Iff.rfl)
          (fun h => absurd h List.not_mem_nil) hname
      rw [selectionQueries_fillAll_named hexpand (hone.bare_operations o hmem) fun hspread => ?_]
      obtain ⟨inner, -, hinner, hgap⟩ := expand_of_enough
        (henough (r := r.named front back ⟨gap, type, part⟩))
        ((fragment?_named hfragments hnew gap).trans (if_pos rfl)) List.not_mem_nil
      rw [hgap]
      dsimp only
      rw [selectionQueries_congr (fun name hname => ?_) hpart]
      refine expand_named hfragments hnew hone hpart hinner henough (fun name hname => ?_) ?_ hname
      · simp [hname]
      · intro _ f hf hspread'
        rw [hone.no_operation f hf hspread' o hmem] at hspread
        cases hspread

end Named

end MappedQuery.Document
