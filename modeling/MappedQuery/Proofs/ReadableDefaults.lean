import MappedQuery.Introspection
import MappedQuery.Document.Token
import Mathlib

/-!
# Defaults that can be read back

Introspection reports a default as its text. The text of a string is the string between quotes,
with nothing escaped, so a quote inside a string may be taken for its end where what follows could
follow a value: a comma and a blank, or a closing bracket. Where no string inside of a list or an
input object has such a quote, two defaults with the same text are equal. Each of the endings does
confuse values: one string reads as two elements, as two lists or as two input objects.
-/
namespace MappedQuery

namespace Value

open Document

/-! ## Literals -/

def isName (s : String) : Bool :=
  match s.toList with
  | [] => false
  | c :: cs => Token.startsName c && cs.all Token.continuesName

/-- The names that are no names of members of an enumeration. -/
def keywords : List String := ["null", "true", "false"]

/-- What literals without fractions and references denote, if all strings in them pass. -/
inductive Literal (text : String → Prop) : Value → Prop
  | null : Literal text .null
  | boolean (b : Bool) : Literal text (.boolean b)
  | enum {name : String} (hname : isName name = true) (hkeyword : name ∉ keywords) :
    Literal text (.enum name)
  | int (n : Int64) : Literal text (.int n)
  | string {s : String} (hs : text s) : Literal text (.string s)
  | list {values : List Value} (hvalues : ∀ v ∈ values, Literal text v) :
    Literal text (.list values)
  | object {members : List (String × Value)} (hkeys : ∀ m ∈ members, isName m.1 = true)
    (hmembers : ∀ m ∈ members, Literal text m.2) : Literal text (.object members)

/-- What comes right after a value inside of a list or an input object. -/
def endings : List (List Char) := [[',', ' '], [']'], ['}']]

/-- No quote of a text comes right before what could come after a value. -/
def Unbroken (s : String) : Prop := ∀ e ∈ endings, ¬ '"' :: e <:+: s.toList

instance : DecidablePred Unbroken := fun s =>
  inferInstanceAs (Decidable (∀ e ∈ endings, ¬ '"' :: e <:+: s.toList))

/-- A literal whose text can be read: a string, or a literal in which all strings are unbroken. -/
def Readable (v : Value) : Prop := (∃ s, v = .string s) ∨ v.Literal Unbroken

/-! ## Texts and what follows them -/

section Following

variable {r r' xs ys : List Char}

/-- A text goes on as after a value. -/
def Ended (r : List Char) : Prop := ∃ e ∈ endings, e <+: r

theorem ended_comma (r : List Char) : Ended (',' :: ' ' :: r) :=
  ⟨[',', ' '], by decide, r, rfl⟩

theorem ended_bracket {z : Char} (hz : [z] ∈ endings) (r : List Char) : Ended (z :: r) :=
  ⟨[z], hz, r, rfl⟩

/-- What comes after a value does not start with a character of a name or a number. -/
theorem Ended.head {p : Char → Bool} (hp : ∀ c ∈ [',', ']', '}'], p c = false) (hr : Ended r) :
    ∀ c ∈ r.head?, p c = false := by
  obtain ⟨e, he, rest, rfl⟩ := hr
  simp only [endings, List.mem_cons, List.not_mem_nil, or_false] at he
  rcases he with rfl | rfl | rfl
  all_goals simpa using hp _ (by decide)

/-- A run of characters of a kind ends where another character follows. -/
theorem run_append_inj {p : Char → Bool} (hxs : ∀ c ∈ xs, p c = true) (hys : ∀ c ∈ ys, p c = true)
    (hr : ∀ c ∈ r.head?, p c = false) (hr' : ∀ c ∈ r'.head?, p c = false)
    (h : xs ++ r = ys ++ r') : xs = ys ∧ r = r' := by
  have htake {t : List Char} (ht : ∀ c ∈ t.head?, p c = false) : t.takeWhile p = [] := by
    cases t with
    | nil => rfl
    | cons c t => exact List.takeWhile_cons_of_neg (by simp [ht c rfl])
  have heq := congrArg (List.takeWhile p) h
  rw [List.takeWhile_append_of_pos hxs, List.takeWhile_append_of_pos hys, htake hr, htake hr',
    List.append_nil, List.append_nil] at heq
  subst heq
  exact ⟨rfl, List.append_cancel_left h⟩

/-- What could come after a value is no shorter for a quote behind it. -/
theorem prefix_of_quote {e cs rest : List Char} (he : e ∈ endings)
    (h : e <+: cs ++ '"' :: rest) : e <+: cs := by
  have hquote : '"' ∉ e := (by decide : ∀ e ∈ endings, '"' ∉ e) e he
  rcases List.prefix_or_prefix_of_prefix h (List.prefix_append cs _) with hprefix | ⟨t, rfl⟩
  · exact hprefix
  · rw [List.prefix_append_right_inj] at h
    cases t with
    | nil => simp
    | cons c t =>
      obtain ⟨u, hu⟩ := h
      rw [(List.cons.inj hu).1] at hquote
      simp at hquote

/-- In an unbroken text there is no quote before what could come after a value. -/
theorem Unbroken.rest_eq_nil {s : String} (hs : Unbroken s) (hr : Ended r) {cs t : List Char}
    (hcut : s.toList = cs ++ t) (h : '"' :: r = t ++ '"' :: r') : t = [] := by
  obtain ⟨e, he, hprefix⟩ := hr
  cases t with
  | nil => rfl
  | cons c t =>
    obtain ⟨rfl, rfl⟩ := List.cons.inj h
    obtain ⟨u, rfl⟩ := prefix_of_quote he hprefix
    exact absurd ⟨cs, u, by simp [hcut]⟩ (hs e he)

theorem Unbroken.append_inj {s s' : String} (hs : Unbroken s) (hs' : Unbroken s') (hr : Ended r)
    (hr' : Ended r') (h : s.toList ++ '"' :: r = s'.toList ++ '"' :: r') : s = s' ∧ r = r' := by
  rcases List.append_eq_append_iff.1 h with ⟨t, hcut, heq⟩ | ⟨t, hcut, heq⟩
  · obtain rfl := hs'.rest_eq_nil hr hcut heq
    exact ⟨(String.toList_inj.1 (by simpa using hcut)).symm, (List.cons.inj heq).2⟩
  · obtain rfl := hs.rest_eq_nil hr' hcut heq
    exact ⟨String.toList_inj.1 (by simpa using hcut), (List.cons.inj heq).2.symm⟩

end Following

/-! ## Rows -/

section Rows

variable {α : Type} (f : α → List Char)

/-- The texts of the elements behind the first. -/
def furtherChars (rest : List α) : List Char := rest.flatMap fun a => ',' :: ' ' :: f a

def rowChars : List α → List Char
  | [] => []
  | a :: rest => f a ++ furtherChars f rest

theorem toList_intercalate_row (g : α → String) (as : List α) :
    (String.intercalate ", " (as.map g)).toList = rowChars (fun a => (g a).toList) as := by
  rw [String.toList_intercalate, List.map_map]
  cases as with
  | nil => rfl
  | cons a rest =>
    induction rest generalizing a with
    | nil => simp [rowChars, furtherChars]
    | cons b rest ih =>
      rw [List.map_cons, List.map_cons, List.intercalate_cons_cons, ← List.map_cons, ih]
      simp [rowChars, furtherChars]

variable {f} {as bs : List α} {z : Char} {r r' : List Char}

/-- Before what could come after a value, two elements have the same text only if they are the
same. -/
def Determines (f : α → List Char) (a b : α) : Prop :=
  ∀ {r r' : List Char}, Ended r → Ended r' → f a ++ r = f b ++ r' → a = b ∧ r = r'

theorem ended_further (hz : [z] ∈ endings) : Ended (furtherChars f as ++ z :: r) := by
  cases as with
  | nil => exact ended_bracket hz r
  | cons a as => exact ended_comma _

theorem further_append_inj (hz : [z] ∈ endings) (hf : ∀ a ∈ as, ∀ b ∈ bs, Determines f a b)
    (h : furtherChars f as ++ z :: r = furtherChars f bs ++ z :: r') : as = bs ∧ r = r' := by
  have hcomma : z ≠ ',' := by
    rintro rfl
    revert hz
    decide
  induction as generalizing bs with
  | nil =>
    cases bs with
    | nil => exact ⟨rfl, (List.cons.inj h).2⟩
    | cons b bs => exact absurd (List.cons.inj h).1 hcomma
  | cons a as ih =>
    cases bs with
    | nil => exact absurd (List.cons.inj h).1.symm hcomma
    | cons b bs =>
      simp only [furtherChars, List.flatMap_cons, List.cons_append, List.append_assoc,
        List.cons.injEq, true_and] at h
      obtain ⟨rfl, hrest⟩ := hf a (by simp) b (by simp) (ended_further hz) (ended_further hz) h
      obtain ⟨rfl, hr⟩ := ih (fun a ha b hb => hf a (by simp [ha]) b (by simp [hb])) hrest
      exact ⟨rfl, hr⟩

/-- A row is read back up to its bracket if its elements are and none of them starts with it. -/
theorem row_append_inj (hz : [z] ∈ endings) (hf : ∀ a ∈ as, ∀ b ∈ bs, Determines f a b)
    (hhead : ∀ a ∈ as ++ bs, ∀ t t', f a ++ t ≠ z :: t')
    (h : rowChars f as ++ z :: r = rowChars f bs ++ z :: r') : as = bs ∧ r = r' := by
  cases as with
  | nil =>
    cases bs with
    | nil => exact ⟨rfl, (List.cons.inj h).2⟩
    | cons b bs =>
      rw [rowChars, rowChars, List.append_assoc] at h
      exact absurd h.symm (hhead b (by simp) _ _)
  | cons a as =>
    cases bs with
    | nil =>
      rw [rowChars, rowChars, List.append_assoc] at h
      exact absurd h (hhead a (by simp) _ _)
    | cons b bs =>
      rw [rowChars, rowChars, List.append_assoc, List.append_assoc] at h
      obtain ⟨rfl, hrest⟩ := hf a (by simp) b (by simp) (ended_further hz) (ended_further hz) h
      obtain ⟨rfl, hr⟩ := further_append_inj hz
        (fun a ha b hb => hf a (by simp [ha]) b (by simp [hb])) hrest
      exact ⟨rfl, hr⟩

end Rows

/-! ## The text of a literal -/

/-- The characters of a value's text. -/
def chars (v : Value) : List Char := v.display.toList

section Containers

variable {text : String → Prop} {v : Value}

theorem displayElements_eq (values : List Value) :
    displayElements values = values.map display := by
  induction values with
  | nil => rfl
  | cons v values ih => rw [displayElements, ih, List.map_cons]

theorem Literal.isAbsent_eq_false (hv : v.Literal text) : v.isAbsent = false := by
  cases hv <;> rfl

theorem displayMembers_eq {members : List (String × Value)}
    (h : ∀ m ∈ members, m.2.Literal text) :
    displayMembers members = members.map fun m => m.1 ++ ": " ++ m.2.display := by
  induction members with
  | nil => rfl
  | cons m members ih =>
    have hpresent : m.2.isAbsent = false := (h m List.mem_cons_self).isAbsent_eq_false
    rw [displayMembers, hpresent, if_neg (by decide), List.map_cons,
      ih fun m hm => h m (List.mem_cons_of_mem _ hm)]

theorem chars_string (s : String) : (string s).chars = '"' :: (s.toList ++ ['"']) := by
  simp [chars, display]

theorem chars_list (values : List Value) :
    (list values).chars = '[' :: (rowChars chars values ++ [']']) := by
  rw [chars, display, displayElements_eq, String.toList_append, String.toList_append,
    toList_intercalate_row]
  rfl

def memberChars (m : String × Value) : List Char := m.1.toList ++ ':' :: ' ' :: m.2.chars

theorem chars_object {members : List (String × Value)} (h : ∀ m ∈ members, m.2.Literal text) :
    (object members).chars = '{' :: (rowChars memberChars members ++ ['}']) := by
  have hchars : (fun m : String × Value => (m.1 ++ ": " ++ m.2.display).toList) = memberChars := by
    funext m
    simp [memberChars, chars]
  rw [chars, display, displayMembers_eq h, String.toList_append, String.toList_append,
    toList_intercalate_row, hchars]
  rfl

end Containers

section Words

/-- The name that a literal is written as, if it is. -/
def word? : Value → Option String
  | .null => some "null"
  | .boolean b => some (if b then "true" else "false")
  | .enum name => some name
  | _ => none

variable {text : String → Prop} {v w : Value} {x : String}

theorem chars_word (h : v.word? = some x) : v.chars = x.toList := by
  cases v with
  | null => rw [← Option.some.inj h, chars, display]
  | boolean b => rw [← Option.some.inj h, chars, display]
  | enum name => rw [← Option.some.inj h, chars, display]
  | _ => nomatch h

theorem Literal.isName_word (hv : v.Literal text) (h : v.word? = some x) : isName x = true := by
  cases hv with
  | null =>
    obtain rfl := Option.some.inj h
    decide
  | boolean b =>
    obtain rfl := Option.some.inj h
    cases b <;> decide
  | enum hname hkeyword =>
    obtain rfl := Option.some.inj h
    exact hname
  | _ => nomatch h

/-- The literal that is written as a name. -/
def ofWord (x : String) : Value :=
  if x = "null" then .null
  else if x = "true" then .boolean true
  else if x = "false" then .boolean false
  else .enum x

theorem Literal.eq_ofWord (hv : v.Literal text) (h : v.word? = some x) : v = ofWord x := by
  cases hv with
  | null =>
    obtain rfl := Option.some.inj h
    rfl
  | boolean b =>
    obtain rfl := Option.some.inj h
    cases b <;> rfl
  | enum hname hkeyword =>
    obtain rfl := Option.some.inj h
    simp only [keywords, List.mem_cons, List.not_mem_nil, or_false, not_or] at hkeyword
    rw [ofWord, if_neg hkeyword.1, if_neg hkeyword.2.1, if_neg hkeyword.2.2]
  | _ => nomatch h

theorem isName_iff : isName x = true ↔ ∃ c cs, x.toList = c :: cs ∧
    Token.startsName c = true ∧ ∀ d ∈ cs, Token.continuesName d = true := by
  rw [isName]
  cases x.toList <;> simp [and_assoc]

theorem continuesName_of_startsName {c : Char} (h : Token.startsName c = true) :
    Token.continuesName c = true := by
  simp only [Token.startsName, Token.continuesName, Char.isAlphanum, Bool.or_eq_true] at h ⊢
  exact h.imp_right .inl

theorem chars_of_isName (h : isName x = true) : ∀ c ∈ x.toList, Token.continuesName c = true := by
  obtain ⟨c, cs, hx, hc, hcs⟩ := isName_iff.1 h
  rw [hx]
  exact List.forall_mem_cons.2 ⟨continuesName_of_startsName hc, hcs⟩

end Words

section Numbers

variable {r r' : List Char}

/-- The characters of whole numbers. -/
def isNumeral (c : Char) : Bool := c = '-' || c.isDigit

theorem isNumeral_of_mem_digits {n : Nat} {c : Char} (h : c ∈ n.repr.toList) :
    isNumeral c = true := by
  rw [Nat.toList_repr] at h
  simp [isNumeral, Nat.isDigit_of_mem_toDigits (by decide) (by decide) h]

theorem isNumeral_of_mem {n : Int} {c : Char} (h : c ∈ (toString n).toList) :
    isNumeral c = true := by
  cases n with
  | ofNat n => exact isNumeral_of_mem_digits h
  | negSucc n =>
    change c ∈ ("-" ++ (n + 1).repr).toList at h
    rw [String.toList_append, List.mem_append] at h
    rcases h with hsign | hdigit
    · obtain rfl : c = '-' := by simpa using hsign
      decide
    · exact isNumeral_of_mem_digits hdigit

theorem toList_ne_nil (n : Int) : (toString n).toList ≠ [] := by
  cases n with
  | ofNat n =>
    change n.repr.toList ≠ []
    rw [Nat.toList_repr]
    exact Nat.toDigits_ne_nil
  | negSucc n =>
    change ("-" ++ (n + 1).repr).toList ≠ []
    simp

theorem number_append_inj {m n : Int64} (hr : Ended r) (hr' : Ended r')
    (h : (int m).chars ++ r = (int n).chars ++ r') : m = n ∧ r = r' := by
  rw [chars, chars, display, display] at h
  have hstop : ∀ c ∈ [',', ']', '}'], isNumeral c = false := by simp [isNumeral]
  obtain ⟨htext, hrest⟩ := run_append_inj (fun _ => isNumeral_of_mem) (fun _ => isNumeral_of_mem)
    (hr.head hstop) (hr'.head hstop) h
  have hrepr := String.toList_inj.1 htext
  rw [Int.toString_eq_repr, Int.toString_eq_repr] at hrepr
  exact ⟨Int64.toInt_inj.1 (Int.repr_injective hrepr), hrest⟩

end Numbers

/-! ## Shapes -/

/-- How the text of a literal starts. -/
inductive Shape where
  | word
  | number
  | quotes
  | brackets
  | braces

def Shape.ofChar? (c : Char) : Option Shape :=
  if Token.startsName c then some word
  else if c = '"' then some quotes
  else if c = '[' then some brackets
  else if c = '{' then some braces
  else if isNumeral c then some number
  else none

def shape : Value → Shape
  | .null | .boolean _ | .enum _ => .word
  | .string _ => .quotes
  | .list _ => .brackets
  | .object _ => .braces
  | _ => .number

theorem not_isAlpha_of_isDigit {c : Char} (h : c.isDigit = true) : c.isAlpha = false := by
  have hbound : c.val.toNat ≤ 57 := (Char.isDigit_iff_toNat.1 h).2
  have hupper : c.isUpper = false := by
    simp only [Char.isUpper, ge_iff_le, UInt32.le_iff_toNat_le, decide_eq_false_iff_not]
    exact fun hrange => absurd (hrange.1.trans hbound) (by decide)
  have hlower : c.isLower = false := by
    rw [Char.isLower, Bool.and_eq_false_iff, decide_eq_false_iff_not, ge_iff_le,
      UInt32.le_iff_toNat_le]
    exact .inl fun hlow => absurd (hlow.trans hbound) (by decide)
  rw [Char.isAlpha, hupper, hlower]
  rfl

theorem Shape.ofChar?_numeral {c : Char} (h : isNumeral c = true) :
    Shape.ofChar? c = some .number := by
  by_cases hsign : c = '-'
  · rw [hsign]
    rfl
  · have hdigit : c.isDigit = true := by simpa [isNumeral, hsign] using h
    have hne {d : Char} (hd : d.isDigit = false) : c ≠ d := by
      rintro rfl
      rw [hdigit] at hd
      cases hd
    have hname : Token.startsName c = false := by
      rw [Token.startsName, not_isAlpha_of_isDigit hdigit, Bool.or_false, decide_eq_false_iff_not]
      exact hne (by decide)
    rw [ofChar?, hname, if_neg (by decide), if_neg (hne (by decide)), if_neg (hne (by decide)),
      if_neg (hne (by decide)), if_pos h]

variable {text text' : String → Prop} {v w : Value} {r r' : List Char}

theorem shape_eq_word_iff : v.shape = .word ↔ ∃ x, v.word? = some x := by
  cases v <;> simp [shape, word?]

/-- The first character of a literal's text tells its shape. -/
theorem Literal.head (hv : v.Literal text) :
    ∃ c cs, v.chars = c :: cs ∧ Shape.ofChar? c = some v.shape := by
  have hword {x : String} (hx : v.word? = some x) :
      ∃ c cs, v.chars = c :: cs ∧ Shape.ofChar? c = some .word := by
    obtain ⟨c, cs, hcs, hc, -⟩ := isName_iff.1 (hv.isName_word hx)
    exact ⟨c, cs, chars_word hx ▸ hcs, if_pos hc⟩
  cases hv with
  | null => exact hword rfl
  | boolean b => exact hword rfl
  | enum hname hkeyword => exact hword rfl
  | int n =>
    obtain ⟨c, cs, hcs⟩ := List.exists_cons_of_ne_nil (toList_ne_nil n.toInt)
    have hc : isNumeral c = true := isNumeral_of_mem (hcs ▸ List.mem_cons_self)
    exact ⟨c, cs, by rw [chars, display, hcs], Shape.ofChar?_numeral hc⟩
  | string hs => exact ⟨'"', _, chars_string _, rfl⟩
  | list hvalues => exact ⟨'[', _, chars_list _, rfl⟩
  | object hkeys hmembers => exact ⟨'{', _, chars_object hmembers, rfl⟩

theorem Literal.shape_eq (hv : v.Literal text) (hw : w.Literal text')
    (h : v.chars ++ r = w.chars ++ r') : v.shape = w.shape := by
  obtain ⟨c, cs, hcs, hc⟩ := hv.head
  obtain ⟨d, ds, hds, hd⟩ := hw.head
  rw [hcs, hds] at h
  rw [(List.cons.inj h).1, hd] at hc
  exact (Option.some.inj hc).symm

/-- No text of a literal starts with a character that is of no shape. -/
theorem Literal.append_ne (hv : v.Literal text) {z : Char} (hz : Shape.ofChar? z = none) :
    v.chars ++ r ≠ z :: r' := by
  obtain ⟨c, cs, hcs, hc⟩ := hv.head
  rw [hcs]
  intro h
  rw [(List.cons.inj h).1, hz] at hc
  cases hc

/-! ## Reading texts back -/

theorem Literal.determines_word (hv : v.Literal text) (hw : w.Literal text) {x : String}
    (hx : v.word? = some x) : Determines chars v w := by
  intro r r' hr hr' h
  have hshape : v.shape = .word := shape_eq_word_iff.2 ⟨x, hx⟩
  obtain ⟨y, hy⟩ := shape_eq_word_iff.1 ((hv.shape_eq hw h).symm.trans hshape)
  have hstop : ∀ c ∈ [',', ']', '}'], Token.continuesName c = false := by
    simp [Token.continuesName]
  rw [chars_word hx, chars_word hy] at h
  obtain ⟨hxy, hrest⟩ := run_append_inj (chars_of_isName (hv.isName_word hx))
    (chars_of_isName (hw.isName_word hy)) (hr.head hstop) (hr'.head hstop) h
  obtain rfl := String.toList_inj.1 hxy
  exact ⟨(hv.eq_ofWord hx).trans (hw.eq_ofWord hy).symm, hrest⟩

theorem determines_member {m n : String × Value} (hm : isName m.1 = true) (hn : isName n.1 = true)
    (h : Determines chars m.2 n.2) : Determines memberChars m n := by
  intro r r' hr hr' heq
  have hstop {cs : List Char} : ∀ c ∈ (':' :: cs).head?, Token.continuesName c = false := by
    simp [Token.continuesName]
  rw [memberChars, memberChars, List.append_assoc, List.append_assoc] at heq
  obtain ⟨hkeys, hvalues⟩ :=
    run_append_inj (chars_of_isName hm) (chars_of_isName hn) hstop hstop heq
  obtain ⟨hvalue, hrest⟩ := h hr hr' (List.cons.inj (List.cons.inj hvalues).2).2
  exact ⟨Prod.ext (String.toList_inj.1 hkeys) hvalue, hrest⟩

theorem memberChars_append_ne {m : String × Value} (hm : isName m.1 = true) :
    memberChars m ++ r ≠ '}' :: r' := by
  obtain ⟨c, cs, hcs, hc, -⟩ := isName_iff.1 hm
  rw [memberChars, hcs]
  rintro h
  rw [(List.cons.inj h).1] at hc
  revert hc
  decide

/-- Literals with unbroken strings are determined by their text wherever they stand. -/
theorem Literal.determines (hv : v.Literal Unbroken) (hw : w.Literal Unbroken) :
    Determines chars v w := by
  -- the first character leaves one kind of literal for the other one
  induction hv generalizing w with
  | null => exact Literal.null.determines_word hw rfl
  | boolean b => exact (Literal.boolean b).determines_word hw rfl
  | enum hname hkeyword => exact (Literal.enum hname hkeyword).determines_word hw rfl
  | int n =>
    intro r r' hr hr' h
    have hshape := (Literal.int n : Literal Unbroken _).shape_eq hw h
    cases hw with
    | int n' =>
      obtain ⟨rfl, hrest⟩ := number_append_inj hr hr' h
      exact ⟨rfl, hrest⟩
    | _ => nomatch hshape
  | string hs =>
    intro r r' hr hr' h
    have hshape := (Literal.string hs).shape_eq hw h
    cases hw with
    | string hs' =>
      rw [chars_string, chars_string, List.cons_append, List.cons_append, List.append_assoc,
        List.append_assoc] at h
      obtain ⟨rfl, hrest⟩ := hs.append_inj hs' hr hr' (List.cons.inj h).2
      exact ⟨rfl, hrest⟩
    | _ => nomatch hshape
  | list hvalues ih =>
    intro r r' hr hr' h
    have hshape := (Literal.list hvalues).shape_eq hw h
    cases hw with
    | list hvalues' =>
      rw [chars_list, chars_list, List.cons_append, List.cons_append, List.append_assoc,
        List.append_assoc] at h
      have hhead : ∀ a ∈ _ ++ _, ∀ t t', chars a ++ t ≠ ']' :: t' := fun a ha t t' =>
        ((List.mem_append.1 ha).elim (hvalues a) (hvalues' a)).append_ne (by decide)
      obtain ⟨rfl, hrest⟩ := row_append_inj (by decide)
        (fun a ha b hb => ih a ha (hvalues' b hb)) hhead (List.cons.inj h).2
      exact ⟨rfl, hrest⟩
    | _ => nomatch hshape
  | object hkeys hmembers ih =>
    intro r r' hr hr' h
    have hshape := (Literal.object hkeys hmembers).shape_eq hw h
    cases hw with
    | object hkeys' hmembers' =>
      rw [chars_object hmembers, chars_object hmembers', List.cons_append, List.cons_append,
        List.append_assoc, List.append_assoc] at h
      have hhead : ∀ a ∈ _ ++ _, ∀ t t', memberChars a ++ t ≠ '}' :: t' := fun a ha t t' =>
        memberChars_append_ne ((List.mem_append.1 ha).elim (hkeys a) (hkeys' a))
      obtain ⟨rfl, hrest⟩ := row_append_inj (by decide)
        (fun a ha b hb => determines_member (hkeys a ha) (hkeys' b hb) (ih a ha (hmembers' b hb)))
        hhead (List.cons.inj h).2
      exact ⟨rfl, hrest⟩
    | _ => nomatch hshape

theorem Literal.mono (htext : ∀ s, text s → text' s) (hv : v.Literal text) : v.Literal text' := by
  induction hv with
  | null => exact .null
  | boolean b => exact .boolean b
  | enum hname hkeyword => exact .enum hname hkeyword
  | int n => exact .int n
  | string hs => exact .string (htext _ hs)
  | list _ ih => exact .list ih
  | object hkeys _ ih => exact .object hkeys ih

theorem Readable.literal (hv : v.Readable) : v.Literal fun _ => True := by
  rcases hv with ⟨s, rfl⟩ | hv
  · exact .string trivial
  · exact hv.mono fun _ _ => trivial

theorem Literal.exists_string (hv : v.Literal text) (h : v.shape = .quotes) :
    ∃ s, v = .string s := by
  cases hv with
  | string _ => exact ⟨_, rfl⟩
  | _ => nomatch h

theorem string_eq_of_display {s s' : String} (h : (string s).display = (string s').display) :
    s = s' := by
  have hchars : (string s).chars = (string s').chars := by rw [chars, h, chars]
  rw [chars_string, chars_string] at hchars
  exact String.toList_inj.1 (List.append_cancel_right (List.cons.inj hchars).2)

/-- Values that can be read are determined by their text. -/
theorem Readable.eq_of_display (hv : v.Readable) (hw : w.Readable) (h : v.display = w.display) :
    v = w := by
  have hchars (t : List Char) : v.chars ++ t = w.chars ++ t := by rw [chars, h, chars]
  have hshape := hv.literal.shape_eq hw.literal (hchars [])
  by_cases hquotes : v.shape = .quotes
  · obtain ⟨s, rfl⟩ := hv.literal.exists_string hquotes
    obtain ⟨s', rfl⟩ := hw.literal.exists_string (hshape.symm.trans hquotes)
    rw [string_eq_of_display h]
  · have hv' : v.Literal Unbroken := hv.resolve_left fun ⟨s, hs⟩ => hquotes (hs ▸ rfl)
    have hw' : w.Literal Unbroken :=
      hw.resolve_left fun ⟨s, hs⟩ => hquotes (hshape.trans (hs ▸ rfl))
    -- a text that stands alone ends as it would inside of a list
    have hended : Ended [']'] := ended_bracket (by decide) []
    exact (hv'.determines hw' hended hended (hchars _)).1

/-- What introspection reports of the default of an argument or an input field. -/
theorem get?_defaultValue (s : Schema) (i : InputDefinition) :
    (Introspection.inputDocument s i).get? "defaultValue" =
      some ((i.default?.map fun v => Json.string v.display).getD .null) := rfl

theorem default_eq_of_text {i j : InputDefinition} (hi : ∀ v ∈ i.default?, v.Readable)
    (hj : ∀ v ∈ j.default?, v.Readable)
    (h : (i.default?.map fun v => Json.string v.display).getD .null =
      (j.default?.map fun v => Json.string v.display).getD .null) : i.default? = j.default? := by
  cases hdefault : i.default? with
  | none =>
    cases hdefault' : j.default? with
    | none => rfl
    | some w => simp [hdefault, hdefault'] at h
  | some v =>
    cases hdefault' : j.default? with
    | none => simp [hdefault, hdefault'] at h
    | some w =>
      rw [hdefault, hdefault'] at h
      rw [(hi v hdefault).eq_of_display (hj w hdefault') (Json.string.inj h)]

/-- Defaults that can be read are the same exactly if introspection reports the same of them, and
values exactly if their texts are the same. Behind a quote in a string, everything that comes after
a value makes one string read as two. -/
theorem defaults_are_read_back {i j : InputDefinition} (hi : ∀ v ∈ i.default?, v.Readable)
    (hj : ∀ v ∈ j.default?, v.Readable) :
    (∀ s t : Schema, (Introspection.inputDocument s i).get? "defaultValue" =
      (Introspection.inputDocument t j).get? "defaultValue" ↔ i.default? = j.default?) ∧
    (∀ v ∈ i.default?, ∀ w ∈ j.default?, v.display = w.display ↔ v = w) ∧
    (∀ a b : String, (list [.string (a ++ "\", \"" ++ b)]).display =
      (list [.string a, .string b]).display) ∧
    (∀ a b : String, (list [.list [.string (a ++ "\"], [\"" ++ b)]]).display =
      (list [.list [.string a], .list [.string b]]).display) ∧
    ∀ k l a b : String,
      (list [.object [(k, .string (a ++ "\"\x7d, \x7b" ++ l ++ ": \"" ++ b))]]).display =
        (list [.object [(k, .string a)], .object [(l, .string b)]]).display := by
  refine ⟨?_, ?_, ?_, ?_, ?_⟩
  · intro s t
    rw [get?_defaultValue, get?_defaultValue]
    constructor
    · intro h
      exact default_eq_of_text hi hj (Option.some.inj h)
    · intro h
      rw [h]
  · intro v hv w hw
    exact ⟨(hi v hv).eq_of_display (hj w hw), congrArg display⟩
  · intro a b
    rw [← String.toList_inj]
    simp [display, displayElements]
  · intro a b
    rw [← String.toList_inj]
    simp [display, displayElements]
  · intro k l a b
    rw [← String.toList_inj]
    simp [display, displayElements, displayMembers, isAbsent]

end Value

namespace Labels

/-- An argument or an input field that takes labels. -/
def labels (name : String) (default : Value) : InputDefinition :=
  ⟨name, .nullable (.list (.nullable (.named "String"))), some default⟩

def quoted : Value := .list [.string "the \"a\" and b"]

def parted : Value := .list [.string "a", .string "b"]

def joined : Value := .list [.string "a\", \"b"]

def schema : Schema := .ofTypes [] "Query"

/-- A quote before a blank ends no string: a default with such quotes is reported alike for an
argument and an input field, and apart from the default of other labels. -/
theorem quoted_labels_are_read_back :
    quoted.Readable ∧ parted.Readable ∧
      (Introspection.inputDocument schema (labels "of" quoted)).get? "defaultValue" =
        (Introspection.inputDocument schema (labels "by" quoted)).get? "defaultValue" ∧
      (Introspection.inputDocument schema (labels "of" quoted)).get? "defaultValue" ≠
        (Introspection.inputDocument schema (labels "of" parted)).get? "defaultValue" := by
  have hquoted : quoted.Readable := .inr (.list fun v hv => by
    rw [List.mem_singleton.1 hv]
    exact .string (by decide))
  have hparted : parted.Readable := .inr (.list fun v hv => by
    rcases List.mem_pair.1 hv with rfl | rfl
    · exact .string (by decide)
    · exact .string (by decide))
  have hreadable (name : String) {v : Value} (hv : v.Readable) :
      ∀ w ∈ (labels name v).default?, w.Readable := fun w hw => Option.some.inj hw ▸ hv
  have hsame := Value.defaults_are_read_back (hreadable "of" hquoted) (hreadable "by" hquoted)
  have hother := Value.defaults_are_read_back (hreadable "of" hquoted) (hreadable "of" hparted)
  refine ⟨hquoted, hparted, (hsame.1 schema schema).2 rfl, fun h => ?_⟩
  have heq : quoted = parted := Option.some.inj ((hother.1 schema schema).1 h)
  simp [quoted, parted] at heq

/-- Two labels, and one with the text between them. -/
theorem joined_labels_look_parted :
    joined.Literal (fun _ => True) ∧ parted.Literal (fun _ => True) ∧ joined ≠ parted ∧
      Introspection.inputDocument schema (labels "of" joined) =
        Introspection.inputDocument schema (labels "of" parted) := by
  refine ⟨.list fun v hv => ?_, .list fun v hv => ?_, by simp [joined, parted], rfl⟩
  · rw [List.mem_singleton.1 hv]
    exact .string trivial
  · rcases List.mem_pair.1 hv with rfl | rfl
    · exact .string trivial
    · exact .string trivial

end Labels

end MappedQuery
