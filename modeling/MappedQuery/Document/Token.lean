import MappedQuery.Number.Decimal
import MappedQuery.Number.Whole
import MappedQuery.Text.Hex
import MappedQuery.Text.Blank

/-!
# Tokens of request and schema documents

`Token.scan?` cuts a document into punctuation, names, numbers and strings; blanks, commas and
comments stand between tokens and are dropped. It refuses a document with an unknown character,
a malformed number or string, or more than `Token.deepest` brackets open at once.
-/
namespace MappedQuery.Document

inductive Token where
  | punctuator (c : Char)
  /-- Three points. -/
  | spread
  | name (s : String)
  | int (n : Int64)
  | float (x : Double)
  | string (s : String)
deriving DecidableEq, Repr

namespace Token

/-- How many brackets of any kind may be open at once. -/
def deepest : Nat := 50

def isPunctuator (c : Char) : Bool := "!$:=@|&()[]{}".toList.contains c

def isBlank (c : Char) : Bool :=
  c = ' ' || c = '\t' || c = '\n' || c = '\r' || c = ',' || c = '\uFEFF'

def endsLine (c : Char) : Bool := c = '\n' || c = '\r'

def startsName (c : Char) : Bool := c = '_' || c.isAlpha

def continuesName (c : Char) : Bool := c = '_' || c.isAlphanum

/-! ## Numbers -/

/-- A number goes on up to a blank, a comma, a comment or punctuation. -/
def continuesNumber (c : Char) : Bool :=
  !(c = ' ' || c = '\t' || c = '\n' || c = '\r' || c = ',' || c = '#' || isPunctuator c)

/-- The sign and the digits of a whole number without superfluous zeros. -/
def wholeNumber? (cs : List Char) : Option (Bool × List Char) :=
  let (negative, digits) :=
    match cs with
    | '-' :: digits => (true, digits)
    | digits => (false, digits)
  if digits.isEmpty || !digits.all Char.isDigit then none
  else if digits.head? = some '0' && digits.length ≠ 1 then none
  else some (negative, digits)

/-- The exponent of a number: a sign or a digit from one to eight, then digits only. -/
def exponent? : List Char → Option Int
  | '-' :: digits =>
    if digits.isEmpty || !digits.all Char.isDigit then none
    else some (-(digitsValue digits : Int))
  | '+' :: digits =>
    if digits.isEmpty || !digits.all Char.isDigit then none else some (digitsValue digits)
  | c :: digits =>
    if '1' ≤ c && c ≤ '8' && digits.all Char.isDigit then some (digitsValue (c :: digits))
    else none
  | [] => none

/-- The characters before and after the last one that passes. -/
def splitAtLast (p : Char → Bool) (cs : List Char) : Option (List Char × List Char) :=
  let (after, before) := cs.reverse.span fun c => !p c
  match before with
  | [] => none
  | _ :: before => some (before.reverse, after.reverse)

def floatOf? (mantissa : List Char) (exponent : Int) : Option Token := do
  let (whole, fraction) ←
    match splitAtLast (· = '.') mantissa with
    | some (whole, fraction) =>
      if fraction.isEmpty || !fraction.all Char.isDigit then none else some (whole, fraction)
    | none => some (mantissa, [])
  let (negative, digits) ← wholeNumber? whole
  pure (float (Double.ofParts negative digits fraction exponent))

/-- The number that a run of characters writes. -/
def number? (cs : List Char) : Option Token :=
  match splitAtLast (fun c => c = 'e' || c = 'E') cs with
  | some (mantissa, exponent) => do floatOf? mantissa (← exponent? exponent)
  | none =>
    if cs.contains '.' then floatOf? cs 0
    else do
      let (negative, digits) ← wholeNumber? cs
      let n : Int := if negative then -(digitsValue digits : Int) else digitsValue digits
      int <$> toInt64? n

/-! ## Strings -/

/-- The character that a letter after a backslash stands for. -/
def escaped? : Char → Option Char
  | '"' => some '"'
  | '\\' => some '\\'
  | '/' => some '/'
  | 'b' => some (Char.ofNat 0x10)
  | 'f' => some (Char.ofNat 0xC)
  | 'n' => some '\n'
  | 'r' => some '\r'
  | 't' => some '\t'
  | _ => none

/-- The character of four hexadecimal digits, the first of which may be a plus sign. -/
def codePoint? (a b c d : Char) : Option Char := do
  let code ← Text.hexNumber? (if a = '+' then [b, c, d] else [a, b, c, d])
  if Text.isScalar code then some (Char.ofNat code) else none

/-- The characters of a string up to its closing quote, and what follows it. -/
def stringBody : List Char → Option (List Char × List Char)
  | '"' :: rest => some ([], rest)
  | '\\' :: 'u' :: a :: b :: c :: d :: rest => do
    let x ← codePoint? a b c d
    let (cs, rest) ← stringBody rest
    pure (x :: cs, rest)
  | '\\' :: letter :: rest => do
    let x ← escaped? letter
    let (cs, rest) ← stringBody rest
    pure (x :: cs, rest)
  | c :: rest =>
    if c = '\n' || c = '\\' then none
    else do
      let (cs, rest) ← stringBody rest
      pure (c :: cs, rest)
  | [] => none

/-- The content of a block string up to three quotes that do not follow a backslash. -/
def blockBody (afterBackslash : Bool) : List Char → Option (List Char × List Char)
  | '"' :: '"' :: '"' :: rest =>
    if afterBackslash then do
      let (cs, rest) ← blockBody false rest
      pure ('"' :: '"' :: '"' :: cs, rest)
    else some ([], rest)
  | c :: rest => do
    let (cs, rest) ← blockBody (c = '\\') rest
    pure (c :: cs, rest)
  | [] => none

/-- The lines of a text, without their ends. -/
def lines (cs : List Char) : List (List Char) :=
  let ended (line : List Char) : List Char :=
    if line.getLast? = some '\r' then line.dropLast else line
  let rec split : List Char → List Char → List (List Char)
    | line, [] => if line.isEmpty then [] else [line.reverse]
    | line, '\n' :: rest => ended line.reverse :: split [] rest
    | line, c :: rest => split (c :: line) rest
  split [] cs

def isBlankLine (line : List Char) : Bool := line.all Text.isBlank

def byteLength (cs : List Char) : Nat := cs.foldl (fun n c => n + c.utf8Size) 0

/-- The text after the first `n` bytes. -/
def dropBytes : Nat → List Char → List Char
  | 0, cs => cs
  | _ + 1, [] => []
  | n + 1, c :: cs => dropBytes (n + 1 - c.utf8Size) cs

/-- How many bytes of white space a line starts with. -/
def indent (line : List Char) : Nat := byteLength (line.takeWhile Text.isBlank)

/-- Three quotes after a backslash stand for themselves. -/
def unescapeQuotes : List Char → List Char
  | '\\' :: '"' :: '"' :: '"' :: rest => '"' :: '"' :: '"' :: unescapeQuotes rest
  | c :: rest => c :: unescapeQuotes rest
  | [] => []

/-- The text of a block string: blank lines around it are dropped, and all lines but the first
lose the white space that those of them which are not blank have in common. -/
def blockText (content : List Char) : String :=
  let all := lines content
  let common := ((all.drop 1).filter fun l => !isBlankLine l).map indent |>.min?
  let cut (line : List Char) : List Char :=
    match common with
    | some n => if n ≤ byteLength line then dropBytes n line else line
    | none => line
  let dedented :=
    match all with
    | [] => []
    | first :: rest => (first, isBlankLine first) :: rest.map fun l => (cut l, isBlankLine l)
  let inner := ((dedented.dropWhile (·.2)).reverse.dropWhile (·.2)).reverse
  String.intercalate "\n" (inner.map fun l => String.ofList (unescapeQuotes l.1))

/-! ## Scanning -/

/-- The token that starts with `c`, and what follows it. -/
def next? (c : Char) (cs : List Char) : Option (Token × List Char) :=
  if isPunctuator c then some (punctuator c, cs)
  else if startsName c then
    let (rest, after) := cs.span continuesName
    some (name (String.ofList (c :: rest)), after)
  else if c = '-' || c.isDigit then
    let (rest, after) := cs.span continuesNumber
    (number? (c :: rest)).map fun t => (t, after)
  else
    match c, cs with
    | '.', '.' :: '.' :: after => some (spread, after)
    | '"', '"' :: '"' :: cs =>
      (blockBody false cs).map fun (content, after) => (string (blockText content), after)
    | '"', cs =>
      (stringBody cs).map fun (content, after) => (string (String.ofList content), after)
    | _, _ => none

/-- The number of open brackets after a token; `none` if there are too many. -/
def nesting? (opened : Nat) : Token → Option Nat
  | punctuator c =>
    if c = '(' || c = '[' || c = '{' then
      if opened < deepest then some (opened + 1) else none
    else if c = ')' || c = ']' || c = '}' then some (opened - 1)
    else some opened
  | _ => some opened

/-- The tokens of a text, of which at most `count` characters start a token, a blank or a
comment. -/
def scanFrom : Nat → Nat → List Char → Option (List Token)
  | _, _, [] => some []
  | 0, _, _ => none
  | count + 1, opened, c :: cs =>
    if isBlank c then scanFrom count opened cs
    else if c = '#' then scanFrom count opened (cs.dropWhile fun c => !endsLine c)
    else do
      let (token, rest) ← next? c cs
      let tokens ← scanFrom count (← nesting? opened token) rest
      pure (token :: tokens)

/-- The tokens of a document. -/
def scan? (text : String) : Option (List Token) :=
  let cs := text.toList
  scanFrom cs.length 0 cs

end Token

end MappedQuery.Document
