/-!
# Binary64 numbers

A `Double` is known by its sixty-four bits, so equality of doubles is decidable and every
operation here is exact arithmetic on natural numbers. `Double.ofRatio` rounds a quotient to the
nearest double, a half going to the even neighbour; `Double.compare` is the numeric order, in
which the two zeros are equal and not-a-number is comparable with nothing.
-/
namespace MappedQuery

/-- A binary64 number, given by its bit pattern. -/
structure Double where
  bits : UInt64
deriving DecidableEq, Repr, Inhabited

namespace Double

/-- The weight of the sign's bit. -/
def signBit : Nat := 0x8000000000000000

/-- The weight of the exponent's lowest bit; fractions are below it. -/
def exponentBit : Nat := 0x10000000000000

/-- The bits below the sign. -/
def magnitude (x : Double) : Nat := x.bits.toNat % signBit

def isNegative (x : Double) : Bool := signBit ≤ x.bits.toNat

/-- The magnitude of the infinities; every larger one is not-a-number. -/
def infinityMagnitude : Nat := 2047 * exponentBit

def isNaN (x : Double) : Bool := infinityMagnitude < x.magnitude

def isFinite (x : Double) : Bool := x.magnitude < infinityMagnitude

def ofMagnitude (negative : Bool) (magnitude : Nat) : Double :=
  ⟨UInt64.ofNat (if negative then signBit + magnitude else magnitude)⟩

/-- The whole numbers `m` and `q` with absolute value `m * 2 ^ q`, for a finite double. -/
def significand (x : Double) : Nat × Int :=
  let biased : Nat := x.magnitude / exponentBit
  let fraction : Nat := x.magnitude % exponentBit
  if biased = 0 then (fraction, -1074) else (exponentBit + fraction, (biased : Int) - 1075)

/-- A whole number in the same order as the finite doubles and the infinities. -/
def orderKey (x : Double) : Int :=
  if x.isNegative then -(x.magnitude : Int) else x.magnitude

/-- A magnitude in units of the smallest positive double; the exponents go on past the largest
double, so an infinity is larger than every finite magnitude. -/
def scaledMagnitude (magnitude : Nat) : Nat :=
  let biased := magnitude / exponentBit
  let fraction := magnitude % exponentBit
  if biased = 0 then fraction else (exponentBit + fraction) * Nat.pow 2 (biased - 1)

/-- The exact number in units of the smallest positive double. -/
def scaled (x : Double) : Int :=
  if x.isNegative then -(scaledMagnitude x.magnitude : Int) else scaledMagnitude x.magnitude

/-- What a whole number is in the same units. -/
def scaleOfInt (n : Int) : Int := n * Nat.pow 2 1074

/-- The numeric order; `none` if an operand is not a number. -/
def compare (x y : Double) : Option Ordering :=
  if x.isNaN || y.isNaN then none else some (Ord.compare x.orderKey y.orderKey)

/-- Numeric equality: the zeros agree and not-a-number differs from itself. -/
def equals (x y : Double) : Bool := x.compare y == some .eq

/-- The quotient to the nearest whole number, a half to the even one. -/
def roundDiv (num den : Nat) : Nat :=
  let quotient := num / den
  let twice := 2 * (num % den)
  if den < twice || (twice = den && quotient % 2 = 1) then quotient + 1 else quotient

/-- The magnitude of the double nearest to `num / den`, a half going to the even neighbour and
values past the largest double to infinity. -/
def roundRatio (num den : Nat) : Nat :=
  if num = 0 then 0 else
  let scaled (e : Int) : Nat × Nat :=
    if e < 0 then (num <<< (-e).toNat, den) else (num, den <<< e.toNat)
  let low : Int := max ((num.log2 : Int) - den.log2 - 53) (-1074)
  let exponent := if 2 * exponentBit ≤ (scaled low).1 / (scaled low).2 then low + 1 else low
  let rounded := roundDiv (scaled exponent).1 (scaled exponent).2
  min ((exponent + 1074).toNat * exponentBit + rounded) infinityMagnitude

def ofRatio (negative : Bool) (num den : Nat) : Double :=
  ofMagnitude negative (roundRatio num den)

/-- The double nearest to a whole number. -/
def ofInt (n : Int) : Double := ofRatio (n < 0) n.natAbs 1

/-- The double nearest to `digits * 10 ^ exponent`. -/
def ofDecimal (negative : Bool) (digits : Nat) (exponent : Int) : Double :=
  let point := (Nat.toDigits 10 digits).length + exponent
  if digits = 0 || point < -400 then ofMagnitude negative 0
  else if 400 < point then ofMagnitude negative infinityMagnitude
  else if exponent < 0 then ofRatio negative digits (Nat.pow 10 (-exponent).toNat)
  else ofRatio negative (digits * Nat.pow 10 exponent.toNat) 1

/-- Comparing the other way round reverses the answer. -/
theorem compare_swap (x y : Double) : (x.compare y).map Ordering.swap = y.compare x := by
  unfold compare
  rw [Bool.or_comm]
  split
  · rfl
  · simp only [Option.map_some, Option.some.injEq]
    exact Std.OrientedCmp.eq_swap.symm

end Double

end MappedQuery
