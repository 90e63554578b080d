import MappedQuery.Text.Like
import Mathlib.Data.List.Forall2

/-!
# Patterns as regular expressions

A pattern can be handed to a library for regular expressions. `Like.expression` writes one that is
anchored at both ends: a percent sign becomes a point that is repeated, an underscore a point, and
every other character stands for itself, behind a backslash where it could mean something else.
`Regular` says what such expressions mean. The expression of a pattern is found in a text exactly if
the text can be cut into parts that the characters of the pattern stand for one by one, and
`Like.fits` decides the same.
-/
namespace MappedQuery.Text

/-! ## Regular expressions -/

namespace Regular

/-- What an expression is made of. -/
inductive Part where
  /-- The beginning of the text. -/
  | start
  /-- The end of the text. -/
  | finish
  /-- Any character. -/
  | point
  /-- Any number of characters. -/
  | points
  | letter (c : Char)
deriving DecidableEq, Repr

structure Flags where
  /-- Letters that differ in case only are the same. -/
  ignoreCase : Bool
  /-- A point stands for a line break too. -/
  allLines : Bool
deriving DecidableEq, Repr

/-- Parts that follow one another. -/
structure Expression where
  flags : Flags
  parts : List Part
deriving DecidableEq, Repr

/-! ### Reading -/

/-- The characters that mean something else than themselves. -/
def reserved : List Char :=
  ['\\', '.', '+', '*', '?', '(', ')', '|', '[', ']', '{', '}', '^', '$']

/-- The characters that are written behind a backslash to stand for themselves. -/
def escapable : List Char := reserved ++ ['#', '&', '-', '~']

/-- The parts that a text writes, if it uses nothing but anchors, points and characters. -/
def parts? : List Char → Option (List Part)
  | [] => some []
  | '.' :: '*' :: rest => (parts? rest).map (.points :: ·)
  | '\\' :: c :: rest =>
    if escapable.contains c then (parts? rest).map (.letter c :: ·) else none
  | c :: rest =>
    if c = '^' then (parts? rest).map (.start :: ·)
    else if c = '$' then (parts? rest).map (.finish :: ·)
    else if c = '.' then (parts? rest).map (.point :: ·)
    else if reserved.contains c then none
    else (parts? rest).map (.letter c :: ·)

/-- The flags up to a closing bracket, and what follows it. -/
def flags? : List Char → Option (Flags × List Char)
  | ')' :: rest => some (⟨false, false⟩, rest)
  | 'i' :: rest => (flags? rest).map fun (f, rest) => ({ f with ignoreCase := true }, rest)
  | 's' :: rest => (flags? rest).map fun (f, rest) => ({ f with allLines := true }, rest)
  | _ => none

/-- The expression that a text writes. -/
def read? : List Char → Option Expression
  | '(' :: '?' :: rest => do
    let (flags, rest) ← flags? rest
    pure ⟨flags, ← parts? rest⟩
  | cs => (parts? cs).map (⟨⟨false, false⟩, ·⟩)

/-! ### Meaning -/

/-- Whether a character of a text is one of an expression. -/
def same (ignoreCase : Bool) : Char → Char → Bool :=
  if ignoreCase then Fold.sameLetter else (· == ·)

/-- Whether a part stands for a stretch of a text, by what is before and after it. -/
def Part.Spans (f : Flags) (before cs after : List Char) : Part → Prop
  | start => before = [] ∧ cs = []
  | finish => cs = [] ∧ after = []
  | point => cs.length = 1 ∧ (f.allLines = true ∨ '\n' ∉ cs)
  | points => f.allLines = true ∨ '\n' ∉ cs
  | letter p => cs.length = 1 ∧ ∀ c ∈ cs, same f.ignoreCase p c = true

/-- Whether parts stand, one after the other, for a stretch of a text. -/
def Spans (f : Flags) (before cs after : List Char) : List Part → Prop
  | [] => cs = []
  | p :: ps => ∃ xs ys, xs ++ ys = cs ∧ p.Spans f before xs (ys ++ after) ∧
      Spans f (before ++ xs) ys after ps

/-- An expression is found in a text if it stands for some stretch of it. -/
def Expression.FoundIn (e : Expression) (text : List Char) : Prop :=
  ∃ before rest, before ++ rest = text ∧
    ∃ cs after, cs ++ after = rest ∧ Spans e.flags before cs after e.parts

/-! ### Searching -/

/-- The ways to cut a text in two. -/
def cuts : List Char → List (List Char × List Char)
  | [] => [([], [])]
  | c :: cs => ([], c :: cs) :: (cuts cs).map fun (xs, ys) => (c :: xs, ys)

theorem mem_cuts {xs ys : List Char} : ∀ {cs : List Char}, (xs, ys) ∈ cuts cs ↔ xs ++ ys = cs
  | [] => by simp [cuts]
  | c :: cs => by
    have ih {xs ys : List Char} : (xs, ys) ∈ cuts cs ↔ xs ++ ys = cs := mem_cuts
    cases xs with
    | nil => simp [cuts]
    | cons x xs => simp [cuts, ih, eq_comm, and_comm]

theorem exists_cut {cs : List Char} {P : List Char → List Char → Prop} :
    (∃ s ∈ cuts cs, P s.1 s.2) ↔ ∃ xs ys, xs ++ ys = cs ∧ P xs ys := by
  simp [Prod.exists, mem_cuts]

instance Part.decidableSpans (f : Flags) (before cs after : List Char) :
    (p : Part) → Decidable (p.Spans f before cs after)
  | start => inferInstanceAs (Decidable (before = [] ∧ cs = []))
  | finish => inferInstanceAs (Decidable (cs = [] ∧ after = []))
  | point => inferInstanceAs (Decidable (cs.length = 1 ∧ (f.allLines = true ∨ '\n' ∉ cs)))
  | points => inferInstanceAs (Decidable (f.allLines = true ∨ '\n' ∉ cs))
  | letter p =>
    inferInstanceAs (Decidable (cs.length = 1 ∧ ∀ c ∈ cs, same f.ignoreCase p c = true))

instance decidableSpans (f : Flags) : (before cs after : List Char) → (ps : List Part) →
    Decidable (Spans f before cs after ps)
  | _, cs, _, [] => inferInstanceAs (Decidable (cs = []))
  | before, cs, after, p :: ps =>
    have (xs ys : List Char) := decidableSpans f (before ++ xs) ys after ps
    let P (xs ys : List Char) : Prop :=
      p.Spans f before xs (ys ++ after) ∧ Spans f (before ++ xs) ys after ps
    decidable_of_iff (∃ s ∈ cuts cs, P s.1 s.2) exists_cut

instance (e : Expression) (text : List Char) : Decidable (e.FoundIn text) :=
  let P (before rest : List Char) : Prop :=
    ∃ cs after, cs ++ after = rest ∧ Spans e.flags before cs after e.parts
  have (before rest : List Char) : Decidable (P before rest) :=
    let Q (cs after : List Char) : Prop := Spans e.flags before cs after e.parts
    decidable_of_iff (∃ s ∈ cuts rest, Q s.1 s.2) exists_cut
  decidable_of_iff (∃ s ∈ cuts text, P s.1 s.2) exists_cut

/-- What a library makes of the text of an expression: nothing if it refuses the text, and otherwise
a test of other texts. -/
abbrev Library := String → Option (String → Bool)

/-- A library keeps to the meaning of expressions: the test that it makes of one tells whether the
expression is found in a text. -/
def Library.KeepsMeaning (compile : Library) : Prop :=
  ∀ text e test, read? text.toList = some e → compile text = some test →
    ∀ subject : String, test subject = true ↔ e.FoundIn subject.toList

/-- A library that searches as the meaning of expressions says, and refuses what it cannot read. -/
def searching : Library := fun text =>
  (read? text.toList).map fun e subject => decide (e.FoundIn subject.toList)

theorem searching_keepsMeaning : searching.KeepsMeaning := by
  intro text e test hread hcompile subject
  rw [searching, hread] at hcompile
  rw [← Option.some.inj hcompile, decide_eq_true_iff]

end Regular

namespace Like

open Regular

/-! ## The expression of a pattern -/

/-- How a character of a pattern is written in an expression. -/
def written (c : Char) : List Char :=
  if c = '%' then ['.', '*']
  else if c = '_' then ['.']
  else if escapable.contains c then ['\\', c]
  else [c]

/-- The regular expression of a pattern. -/
def expression (ignoreCase : Bool) (pattern : String) : String :=
  (if ignoreCase then "(?is)^" else "(?s)^") ++
    String.ofList (pattern.toList.flatMap written) ++ "$"

/-- The part of an expression that a character of a pattern becomes. -/
def partOf (c : Char) : Part :=
  if c = '%' then .points else if c = '_' then .point else .letter c

/-- No character of a pattern is written with a star in front, so a point is never taken for a
repeated one. -/
theorem head?_written (pattern : List Char) :
    (pattern.flatMap written ++ ['$']).head? ≠ some '*' := by
  cases pattern with
  | nil => decide
  | cons c pattern =>
    rw [List.flatMap_cons, written]
    split_ifs with hpercent hunderscore hescapable
    · exact nofun
    · exact nofun
    · exact nofun
    · rintro hstar
      rw [Option.some.inj hstar] at hescapable
      exact hescapable (by decide)

theorem parts?_point {rest : List Char} (h : rest.head? ≠ some '*') :
    parts? ('.' :: rest) = (parts? rest).map (.point :: ·) := by
  rw [parts?]
  · rfl
  · rintro rest' - rfl
    exact h rfl
  · exact nofun

theorem parts?_letter {c : Char} (h : c ∉ escapable) (rest : List Char) :
    parts? (c :: rest) = (parts? rest).map (.letter c :: ·) := by
  have hne {d : Char} (hd : d ∈ escapable) : c ≠ d := fun heq => h (heq ▸ hd)
  have hreserved : c ∉ reserved := fun hmem => h (List.mem_append_left _ hmem)
  rw [parts?]
  · simp [hne (d := '^') (by decide), hne (d := '$') (by decide), hne (d := '.') (by decide),
      hreserved]
  · intro rest' hc
    exact absurd hc (hne (by decide))
  · intro d rest' hc
    exact absurd hc (hne (by decide))

/-- What is written for a pattern is read as its parts. -/
theorem parts?_written (pattern : List Char) :
    parts? (pattern.flatMap written ++ ['$']) = some (pattern.map partOf ++ [.finish]) := by
  induction pattern with
  | nil => rfl
  | cons c pattern ih =>
    have hstar := head?_written pattern
    rw [List.flatMap_cons, List.append_assoc, List.map_cons, written, partOf]
    split_ifs with hpercent hunderscore hescapable
    · rw [List.cons_append, List.cons_append, List.nil_append, parts?, ih]
      rfl
    · rw [List.cons_append, List.nil_append, parts?_point hstar, ih]
      rfl
    · rw [List.cons_append, List.cons_append, List.nil_append, parts?, if_pos hescapable, ih]
      rfl
    · rw [List.cons_append, List.nil_append, parts?_letter (by simpa using hescapable), ih]
      rfl

theorem read?_expression (ignoreCase : Bool) (pattern : String) :
    read? (expression ignoreCase pattern).toList =
      some ⟨⟨ignoreCase, true⟩, .start :: (pattern.toList.map partOf ++ [.finish])⟩ := by
  have hparts : parts? ('^' :: (pattern.toList.flatMap written ++ ['$'])) =
      some (.start :: (pattern.toList.map partOf ++ [.finish])) := by
    rw [parts?, if_pos rfl, parts?_written]
    · rfl
    · exact nofun
    · exact nofun
  cases ignoreCase with
  | false =>
    have htext : (expression false pattern).toList =
        '(' :: '?' :: 's' :: ')' :: '^' :: (pattern.toList.flatMap written ++ ['$']) := by
      simp [expression]
    rw [htext, read?, flags?, flags?]
    simp [hparts]
  | true =>
    have htext : (expression true pattern).toList =
        '(' :: '?' :: 'i' :: 's' :: ')' :: '^' :: (pattern.toList.flatMap written ++ ['$']) := by
      simp [expression]
    rw [htext, read?, flags?, flags?, flags?]
    simp [hparts]

/-! ## Cutting a text along a pattern -/

/-- What a character of a pattern stands for: a percent sign for any text, an underscore for one
character, and every other character for itself, or for what differs from it in case. -/
def StandsFor (ignoreCase : Bool) (p : Char) (part : List Char) : Prop :=
  if p = '%' then True
  else if p = '_' then part.length = 1
  else if ignoreCase then ∃ c, part = [c] ∧ Fold.sameLetter p c = true
  else part = [p]

/-- A text can be cut into parts that the characters of a pattern stand for one by one. -/
def Splits (ignoreCase : Bool) (pattern text : List Char) : Prop :=
  ∃ parts, parts.flatten = text ∧ List.Forall₂ (StandsFor ignoreCase) pattern parts

variable {ignoreCase : Bool} {p : Char} {pattern cs : List Char}

theorem splits_nil : Splits ignoreCase [] cs ↔ cs = [] := by
  constructor
  · rintro ⟨parts, rfl, hparts⟩
    cases hparts
    rfl
  · rintro rfl
    exact ⟨[], rfl, .nil⟩

theorem splits_cons : Splits ignoreCase (p :: pattern) cs ↔
    ∃ xs ys, xs ++ ys = cs ∧ StandsFor ignoreCase p xs ∧ Splits ignoreCase pattern ys := by
  constructor
  · rintro ⟨parts, rfl, hparts⟩
    obtain ⟨xs, rest, hfirst, hrest, rfl⟩ := List.forall₂_cons_left_iff.1 hparts
    exact ⟨xs, rest.flatten, rfl, hfirst, rest, rfl, hrest⟩
  · rintro ⟨xs, ys, rfl, hfirst, parts, rfl, hparts⟩
    exact ⟨xs :: parts, rfl, .cons hfirst hparts⟩

/-- A character that is no wildcard stands for one character that is the same. -/
theorem standsFor_letter (hpercent : p ≠ '%') (hunderscore : p ≠ '_') :
    StandsFor ignoreCase p cs ↔ ∃ c, cs = [c] ∧ same ignoreCase p c = true := by
  rw [StandsFor, if_neg hpercent, if_neg hunderscore]
  cases ignoreCase with
  | true => rfl
  | false =>
    constructor
    · intro h
      exact ⟨p, h, beq_self_eq_true p⟩
    · rintro ⟨c, rfl, hsame⟩
      rw [beq_iff_eq.1 hsame]
      rfl

/-- Where points stand for all characters, the part of a character stands for what the character
does, wherever it is. -/
theorem partOf_spans (before after : List Char) :
    (partOf p).Spans ⟨ignoreCase, true⟩ before cs after ↔ StandsFor ignoreCase p cs := by
  by_cases hpercent : p = '%'
  · rw [partOf, StandsFor, if_pos hpercent, if_pos hpercent]
    exact iff_of_true (.inl rfl) trivial
  · by_cases hunderscore : p = '_'
    · rw [partOf, StandsFor, if_neg hpercent, if_neg hpercent, if_pos hunderscore,
        if_pos hunderscore]
      exact and_iff_left (.inl rfl)
    · rw [standsFor_letter hpercent hunderscore, partOf, if_neg hpercent, if_neg hunderscore,
        Part.Spans, List.length_eq_one_iff]
      constructor
      · rintro ⟨⟨c, rfl⟩, hc⟩
        exact ⟨c, rfl, hc c (List.mem_singleton_self c)⟩
      · rintro ⟨c, rfl, hc⟩
        exact ⟨⟨c, rfl⟩, fun d hd => List.mem_singleton.1 hd ▸ hc⟩

/-- The parts of a pattern stand for a stretch up to the end of a text if the stretch can be cut
along the pattern. -/
theorem spans_pattern (before after : List Char) :
    Spans ⟨ignoreCase, true⟩ before cs after (pattern.map partOf ++ [.finish]) ↔
      after = [] ∧ Splits ignoreCase pattern cs := by
  induction pattern generalizing before cs with
  | nil =>
    simp only [List.map_nil, List.nil_append, Spans, Part.Spans, splits_nil]
    constructor
    · rintro ⟨xs, ys, rfl, ⟨rfl, hafter⟩, rfl⟩
      exact ⟨(List.append_eq_nil_iff.1 hafter).2, rfl⟩
    · rintro ⟨rfl, rfl⟩
      exact ⟨[], [], rfl, ⟨rfl, rfl⟩, rfl⟩
  | cons p pattern ih =>
    simp only [List.map_cons, List.cons_append, Spans, partOf_spans, ih, splits_cons]
    constructor
    · rintro ⟨xs, ys, hcut, hfirst, hafter, hrest⟩
      exact ⟨hafter, xs, ys, hcut, hfirst, hrest⟩
    · rintro ⟨hafter, xs, ys, hcut, hfirst, hrest⟩
      exact ⟨xs, ys, hcut, hfirst, hafter, hrest⟩

/-- The anchors leave no choice of the stretch that the expression of a pattern stands for. -/
theorem foundIn_iff_splits : Expression.FoundIn
    ⟨⟨ignoreCase, true⟩, .start :: (pattern.map partOf ++ [.finish])⟩ cs ↔
      Splits ignoreCase pattern cs := by
  simp only [Expression.FoundIn, Spans, Part.Spans, spans_pattern]
  constructor
  · rintro ⟨before, rest, rfl, stretch, after, rfl, xs, ys, rfl, ⟨rfl, rfl⟩, rfl, hsplits⟩
    simpa using hsplits
  · intro hsplits
    exact ⟨[], cs, rfl, cs, [], List.append_nil cs, [], cs, rfl, ⟨rfl, rfl⟩, rfl, hsplits⟩

/-! ## Deciding -/

/-- Marks tell of which rests of a text something holds, the longest first. -/
def Marks (P : List Char → Prop) (marks : List Bool) (cs : List Char) : Prop :=
  List.Forall₂ (fun b rest => b = true ↔ P rest) marks cs.tails

theorem marks_nil {P : List Char → Prop} {marks : List Bool} :
    Marks P marks [] ↔ ∃ b, marks = [b] ∧ (b = true ↔ P []) := by
  simp [Marks, List.forall₂_cons_right_iff, and_comm]

theorem marks_cons {P : List Char → Prop} {marks : List Bool} {c : Char} :
    Marks P marks (c :: cs) ↔
      ∃ b rest, marks = b :: rest ∧ (b = true ↔ P (c :: cs)) ∧ Marks P rest cs := by
  simp only [Marks, List.tails, List.forall₂_cons_right_iff]
  constructor
  · rintro ⟨b, rest, hb, hrest, rfl⟩
    exact ⟨b, rest, rfl, hb, hrest⟩
  · rintro ⟨b, rest, rfl, hb, hrest⟩
    exact ⟨b, rest, hb, hrest, rfl⟩

/-- The first mark is about the whole text. -/
theorem Marks.head {P : List Char → Prop} {marks : List Bool} (h : Marks P marks cs) :
    marks.headD false = true ↔ P cs := by
  cases cs with
  | nil =>
    obtain ⟨b, rfl, hb⟩ := marks_nil.1 h
    exact hb
  | cons c cs =>
    obtain ⟨b, rest, rfl, hb, -⟩ := marks_cons.1 h
    exact hb

theorem Marks.of_iff {P Q : List Char → Prop} {marks : List Bool} (h : Marks P marks cs)
    (hPQ : ∀ rest, P rest ↔ Q rest) : Marks Q marks cs :=
  List.Forall₂.imp (fun _ rest hb => hb.trans (hPQ rest)) h

theorem marks_end : Marks (· = []) (cs.map (fun _ => false) ++ [true]) cs := by
  induction cs with
  | nil => exact marks_nil.2 ⟨true, rfl, by simp⟩
  | cons c cs ih => exact marks_cons.2 ⟨false, _, rfl, by simp, ih⟩

theorem Marks.anyLater {P : List Char → Prop} {marks : List Bool} (h : Marks P marks cs) :
    Marks (fun rest => ∃ xs ys, xs ++ ys = rest ∧ P ys) (anyLater marks) cs := by
  induction cs generalizing marks with
  | nil =>
    obtain ⟨b, rfl, hb⟩ := marks_nil.1 h
    refine marks_nil.2 ⟨b, by simp [Like.anyLater], ?_⟩
    simp [hb]
  | cons c cs ih =>
    obtain ⟨b, rest, rfl, hb, hrest⟩ := marks_cons.1 h
    refine marks_cons.2 ⟨_, _, rfl, ?_, ih hrest⟩
    rw [Bool.or_eq_true, hb, (ih hrest).head]
    constructor
    · rintro (hhere | ⟨xs, ys, rfl, hlater⟩)
      · exact ⟨[], c :: cs, rfl, hhere⟩
      · exact ⟨c :: xs, ys, rfl, hlater⟩
    · rintro ⟨xs, ys, hcut, hP⟩
      cases xs with
      | nil => exact .inl (hcut ▸ hP)
      | cons x xs => exact .inr ⟨xs, ys, (List.cons.inj hcut).2, hP⟩

theorem Marks.stepOver {P : List Char → Prop} {marks : List Bool} (passes : Char → Bool)
    (h : Marks P marks cs) :
    Marks (fun rest => ∃ xs ys, xs ++ ys = rest ∧ (∃ c, xs = [c] ∧ passes c = true) ∧ P ys)
      (stepOver passes cs marks) cs := by
  induction cs generalizing marks with
  | nil =>
    refine marks_nil.2 ⟨false, by cases marks <;> rfl, ?_⟩
    simp
  | cons c cs ih =>
    obtain ⟨b, rest, rfl, -, hrest⟩ := marks_cons.1 h
    refine marks_cons.2 ⟨_, _, rfl, ?_, ih hrest⟩
    rw [Bool.and_eq_true, hrest.head]
    constructor
    · rintro ⟨hpasses, hP⟩
      exact ⟨[c], cs, rfl, ⟨c, rfl, hpasses⟩, hP⟩
    · rintro ⟨_, ys, hcut, ⟨d, rfl, hpasses⟩, hP⟩
      obtain ⟨rfl, rfl⟩ := List.cons.inj hcut
      exact ⟨hpasses, hP⟩

/-- The marks that are carried along a pattern tell which rests can be cut along it. -/
theorem marks_rests (ignoreCase : Bool) (pattern cs : List Char) :
    Marks (Splits ignoreCase pattern) (rests (same ignoreCase) (pattern.map Piece.ofChar) cs)
      cs := by
  induction pattern with
  | nil => exact marks_end.of_iff fun rest => splits_nil.symm
  | cons p pattern ih =>
    rw [List.map_cons, Piece.ofChar]
    split_ifs with hpercent hunderscore
    · refine ih.anyLater.of_iff fun rest => ?_
      simp [splits_cons, StandsFor, hpercent]
    · refine (ih.stepOver fun _ => true).of_iff fun rest => ?_
      simp [splits_cons, StandsFor, hunderscore, List.length_eq_one_iff]
    · refine (ih.stepOver _).of_iff fun rest => ?_
      simp only [splits_cons, standsFor_letter hpercent hunderscore]

/-- A text has the shape of a pattern exactly if it can be cut along the pattern. A library for
regular expressions that accepts the expression of the pattern tells the same. -/
theorem fits_iff_splits {compile : Library} (hcompile : compile.KeepsMeaning) (ignoreCase : Bool)
    (pattern subject : String) :
    (∀ test, compile (expression ignoreCase pattern) = some test →
      (test subject = true ↔ Splits ignoreCase pattern.toList subject.toList)) ∧
      (fits ignoreCase pattern subject = true ↔
        Splits ignoreCase pattern.toList subject.toList) := by
  constructor
  · intro test htest
    rw [hcompile _ _ test (read?_expression ignoreCase pattern) htest subject, foundIn_iff_splits]
  · exact (marks_rests ignoreCase pattern.toList subject.toList).head

/-- A point of a pattern stands for itself alone, and a percent sign also for line breaks. -/
theorem points_stand_for_themselves : searching.KeepsMeaning ∧
    (∃ test, searching (expression false "a.%_") = some test ∧ test "a.\n\nb" = true) ∧
    Splits false "a.%_".toList "a.\n\nb".toList ∧
    ¬ Splits false "a.%_".toList "ab\n\nb".toList := by
  have hfits := (fits_iff_splits searching_keepsMeaning false "a.%_" "a.\n\nb").2.1
    (by decide +kernel)
  have hmisses := (fits_iff_splits searching_keepsMeaning false "a.%_" "ab\n\nb").2.not.1
    (by decide +kernel)
  refine ⟨searching_keepsMeaning, ⟨_, rfl, ?_⟩, hfits, hmisses⟩
  exact ((fits_iff_splits searching_keepsMeaning false "a.%_" "a.\n\nb").1 _ rfl).2 hfits

end Like

end MappedQuery.Text
