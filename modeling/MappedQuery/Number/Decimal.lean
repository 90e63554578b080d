import MappedQuery.Number.Double

/-!
# Decimal text of doubles

`Double.shortest` gives the fewest decimal digits from which a finite double can be read back,
and of those the nearest to it. A `Layout` says how such digits are laid out; `Layout.json` is
the layout of documents and `Layout.plain` that of messages. `readDecimal?` reads the digits,
fraction and exponent of a number back.
-/
namespace MappedQuery

/-- The number `0.d₁d₂… * 10 ^ point` for its digits `d₁d₂…`. -/
structure Decimal where
  digits : List Char
  point : Int
deriving DecidableEq, Repr

/-- Which of two equally near decimals is taken. -/
inductive Tie where
  | toEven
  | up
deriving DecidableEq, Repr

namespace Decimal

/-- The digits of a whole number without the zeros at their end. -/
def significantDigits (n : Nat) : List Char :=
  ((Nat.toDigits 10 n).reverse.dropWhile (· == '0')).reverse

/-- The decimal `n * 10 ^ exponent`. -/
def ofNat (n : Nat) (exponent : Int) : Decimal where
  digits := if n = 0 then ['0'] else significantDigits n
  point := (Nat.toDigits 10 n).length + exponent

end Decimal

/-- The quarters of a unit in the last place between which a double's neighbours begin. -/
structure RoundingInterval where
  low : Nat
  middle : Nat
  high : Nat
  closed : Bool

namespace RoundingInterval

/-- Whether a number of quarter units is read back as the interval's double. -/
def admits (i : RoundingInterval) (x : Nat) : Bool :=
  if i.closed then i.low ≤ x && x ≤ i.high else i.low < x && x < i.high

/-- The admitted one of the middle's two neighbours among the multiples of `unit`, counted in
that unit; of two the nearer, and on a tie the one that `tie` names. -/
def neighbour? (i : RoundingInterval) (tie : Tie) (unit : Nat) : Option Nat :=
  let below := i.middle / (4 * unit)
  let x := 4 * unit * below
  let y := 4 * unit * (below + 1)
  match i.admits x, i.admits y with
  | false, false => none
  | true, false => some below
  | false, true => some (below + 1)
  | true, true =>
    match compare (i.middle - x) (y - i.middle) with
    | .lt => some below
    | .gt => some (below + 1)
    | .eq =>
      match tie with
      | .up => some (below + 1)
      | .toEven => some (if below % 2 = 0 then below else below + 1)

end RoundingInterval

namespace Double

/-- The fewest digits that read back as the absolute value of a finite double. -/
def shortest (tie : Tie) (x : Double) : Decimal :=
  let m := x.significand.1
  let q := x.significand.2
  let scale := if q < 0 then Nat.pow 5 (-q).toNat else Nat.pow 2 q.toNat
  let exponent := min q 0
  let interval : RoundingInterval :=
    { low := (if m = exponentBit && -1074 < q then 4 * m - 1 else 4 * m - 2) * scale
      middle := 4 * m * scale
      high := (4 * m + 2) * scale
      closed := m % 2 = 0 }
  let count := (Nat.toDigits 10 (m * scale)).length
  let candidate? := (List.range count).findSome? fun dropped =>
    let kept := count - 1 - dropped
    (interval.neighbour? tie (Nat.pow 10 kept)).map fun n => Decimal.ofNat n (kept + exponent)
  candidate?.getD (Decimal.ofNat (m * scale) exponent)

end Double

/-- How the digits of a double are written. -/
structure Layout where
  tie : Tie
  /-- Whether a number with this many digits before its point is written without an exponent. -/
  positional : Int → Bool
  /-- What ends a whole number that is written without an exponent. -/
  wholeEnd : String

namespace Layout

/-- Documents: positional between `0.00001` and sixteen digits, whole numbers with `.0`. -/
def json : Layout where
  tie := .toEven
  positional := fun point => -5 < point && point ≤ 16
  wholeEnd := ".0"

/-- Messages: always positional, whole numbers without a point. -/
def plain : Layout where
  tie := .up
  positional := fun _ => true
  wholeEnd := ""

private def zeros (n : Nat) : List Char := List.replicate n '0'

def writePositional (l : Layout) (d : Decimal) : String :=
  if d.point ≤ 0 then
    String.ofList ('0' :: '.' :: zeros (-d.point).toNat ++ d.digits)
  else if d.digits.length ≤ d.point.toNat then
    String.ofList (d.digits ++ zeros (d.point.toNat - d.digits.length)) ++ l.wholeEnd
  else
    String.ofList (d.digits.take d.point.toNat ++ '.' :: d.digits.drop d.point.toNat)

def writeScientific (d : Decimal) : String :=
  let exponent := d.point - 1
  let mantissa :=
    match d.digits with
    | [] => "0"
    | [c] => String.ofList [c]
    | c :: rest => String.ofList (c :: '.' :: rest)
  mantissa ++ "e" ++ (if exponent < 0 then "-" else "+") ++ toString exponent.natAbs

def writeDecimal (l : Layout) (d : Decimal) : String :=
  if l.positional d.point then l.writePositional d else writeScientific d

/-- The text of a double. -/
def write (l : Layout) (x : Double) : String :=
  if x.isNaN then "NaN" else
  let sign := if x.isNegative then "-" else ""
  if !x.isFinite then sign ++ "inf"
  else if x.magnitude = 0 then sign ++ l.writeDecimal (Decimal.ofNat 0 0)
  else sign ++ l.writeDecimal (x.shortest l.tie)

end Layout

/-- The value of a run of decimal digits. -/
def digitsValue (cs : List Char) : Nat :=
  cs.foldl (fun n c => 10 * n + (c.toNat - '0'.toNat)) 0

/-- The double nearest to a number with these whole, fraction and exponent digits. -/
def Double.ofParts (negative : Bool) (whole fraction : List Char) (exponent : Int) : Double :=
  Double.ofDecimal negative (digitsValue (whole ++ fraction)) (exponent - fraction.length)

end MappedQuery
