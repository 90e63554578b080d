import MappedQuery.Json.Basic
import MappedQuery.Text.Hex

/-!
# Reading documents

`Json.parse?` reads the text of one document. Whole numbers that fit sixty-four bits, signed or
unsigned, stay whole; all others are rounded to the nearest double and refused if there is none.
Arrays and objects nest at most `Json.deepest` levels, and an object's repeated key keeps its
first place and its last value.
-/
namespace MappedQuery.Json

/-- How many arrays and objects may be open at once. -/
def deepest : Nat := 127

namespace Reader

def isBlank (c : Char) : Bool := c = ' ' || c = '\t' || c = '\n' || c = '\r'

def skipBlank (cs : List Char) : List Char := cs.dropWhile isBlank

/-- The character of a letter after a backslash. -/
def escaped? : Char → Option Char
  | '"' => some '"'
  | '\\' => some '\\'
  | '/' => some '/'
  | 'b' => some (Char.ofNat 8)
  | 'f' => some (Char.ofNat 12)
  | 'n' => some '\n'
  | 'r' => some '\r'
  | 't' => some '\t'
  | _ => none

/-- The characters of a string up to its closing quote, and what follows it. -/
def stringBody : List Char → Option (List Char × List Char)
  | '"' :: rest => some ([], rest)
  | '\\' :: 'u' :: a :: b :: c :: d :: rest => do
    let unit ← Text.hexNumber? [a, b, c, d]
    if 0xD800 ≤ unit && unit < 0xDC00 then
      match rest with
      | '\\' :: 'u' :: e :: f :: g :: h :: rest => do
        let low ← Text.hexNumber? [e, f, g, h]
        if 0xDC00 ≤ low && low < 0xE000 then
          let (cs, rest) ← stringBody rest
          pure (Char.ofNat (0x10000 + (unit - 0xD800) * 0x400 + (low - 0xDC00)) :: cs, rest)
        else none
      | _ => none
    else if 0xDC00 ≤ unit && unit < 0xE000 then none
    else do
      let (cs, rest) ← stringBody rest
      pure (Char.ofNat unit :: cs, rest)
  | '\\' :: letter :: rest => do
    let c ← escaped? letter
    let (cs, rest) ← stringBody rest
    pure (c :: cs, rest)
  | c :: rest =>
    if c.toNat < 32 || c = '\\' then none
    else do
      let (cs, rest) ← stringBody rest
      pure (c :: cs, rest)
  | [] => none

/-- The document of a number with these digits; `none` if it is too large. -/
def numberOf (negative : Bool) (whole fraction : List Char) (exponent? : Option Int) :
    Option Json :=
  let n := digitsValue whole
  let isWhole := fraction.isEmpty && exponent?.isNone
  if isWhole && negative && 0 < n && n ≤ 0x8000000000000000 then some (integer (-(n : Int)))
  else if isWhole && !negative && n < 0x10000000000000000 then some (integer n)
  else
    let x := Double.ofParts negative whole fraction (exponent?.getD 0)
    if x.isFinite then some (double x) else none

/-- The fraction digits after a point, none without one. -/
def fraction : List Char → Option (List Char × List Char)
  | '.' :: rest =>
    let (digits, rest) := rest.span Char.isDigit
    if digits.isEmpty then none else some (digits, rest)
  | rest => some ([], rest)

/-- The exponent after its letter, none without one. -/
def exponent : List Char → Option (Option Int × List Char)
  | c :: rest =>
    if c = 'e' || c = 'E' then
      let (negative, rest) :=
        match rest with
        | '-' :: rest => (true, rest)
        | '+' :: rest => (false, rest)
        | rest => (false, rest)
      let (digits, rest) := rest.span Char.isDigit
      if digits.isEmpty then none
      else
        let n : Int := digitsValue digits
        some (some (if negative then -n else n), rest)
    else some (none, c :: rest)
  | [] => some (none, [])

def number (cs : List Char) : Option (Json × List Char) := do
  let (negative, cs) :=
    match cs with
    | '-' :: rest => (true, rest)
    | cs => (false, cs)
  let (whole, rest) ←
    match cs with
    | '0' :: rest => some (['0'], rest)
    | cs =>
      let (digits, rest) := cs.span Char.isDigit
      if digits.isEmpty then none else some (digits, rest)
  let (fractionDigits, rest) ← fraction rest
  let (exponent?, rest) ← exponent rest
  let n ← numberOf negative whole fractionDigits exponent?
  pure (n, rest)

/-- One or more items with commas between them up to `closing`; at most `count` of them. -/
def items (item : List Char → Option (α × List Char)) (closing : Char) :
    Nat → List Char → Option (List α × List Char)
  | 0, _ => none
  | count + 1, cs => do
    let (a, rest) ← item cs
    match skipBlank rest with
    | ',' :: rest =>
      let (as, rest) ← items item closing count rest
      pure (a :: as, rest)
    | c :: rest => if c = closing then pure ([a], rest) else none
    | [] => none

/-- A key, a colon and what `value` reads. -/
def member (value : List Char → Option (Json × List Char)) (cs : List Char) :
    Option ((String × Json) × List Char) :=
  match skipBlank cs with
  | '"' :: rest => do
    let (key, rest) ← stringBody rest
    match skipBlank rest with
    | ':' :: rest =>
      let (v, rest) ← value rest
      pure ((String.ofList key, v), rest)
    | _ => none
  | _ => none

/-- One document and what follows it, with at most `levels` open brackets. -/
def value : Nat → List Char → Option (Json × List Char)
  | levels, cs =>
    match skipBlank cs with
    | 'n' :: 'u' :: 'l' :: 'l' :: rest => some (null, rest)
    | 't' :: 'r' :: 'u' :: 'e' :: rest => some (bool true, rest)
    | 'f' :: 'a' :: 'l' :: 's' :: 'e' :: rest => some (bool false, rest)
    | '"' :: rest => (stringBody rest).map fun (s, rest) => (string (String.ofList s), rest)
    | '[' :: rest =>
      match levels with
      | 0 => none
      | levels + 1 =>
        match skipBlank rest with
        | ']' :: rest => some (array [], rest)
        | rest =>
          (items (value levels) ']' rest.length rest).map fun (es, rest) => (array es, rest)
    | '{' :: rest =>
      match levels with
      | 0 => none
      | levels + 1 =>
        match skipBlank rest with
        | '}' :: rest => some (object [], rest)
        | rest =>
          (items (member (value levels)) '}' rest.length rest).map fun (ms, rest) =>
            (ofMembers ms, rest)
    | rest => number rest

end Reader

/-- The document that a text writes, with at most `levels` open brackets. -/
def parseWithin? (levels : Nat) (text : String) : Option Json :=
  match Reader.value levels text.toList with
  | some (document, rest) => if (Reader.skipBlank rest).isEmpty then some document else none
  | none => none

def parse? (text : String) : Option Json := parseWithin? deepest text

end MappedQuery.Json
