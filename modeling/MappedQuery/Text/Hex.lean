/-!
# Hexadecimal digits

`hexValue?` reads a digit of either case and `hexDigit` writes the last digit of a number in
lower case.
-/
namespace MappedQuery.Text

def hexValue? (c : Char) : Option Nat :=
  if '0' ≤ c && c ≤ '9' then some (c.toNat - '0'.toNat)
  else if 'a' ≤ c && c ≤ 'f' then some (c.toNat - 'a'.toNat + 10)
  else if 'A' ≤ c && c ≤ 'F' then some (c.toNat - 'A'.toNat + 10)
  else none

def hexDigit (n : Nat) : Char := (Nat.toDigits 16 (n % 16)).headD '0'

/-- The number that hexadecimal digits write. -/
def hexNumber? (cs : List Char) : Option Nat :=
  cs.foldl (fun n c => do pure (16 * (← n) + (← hexValue? c))) (some 0)

/-- Whether a number is the code point of a character and not a surrogate. -/
def isScalar (code : Nat) : Bool := code < 0xD800 || (0xE000 ≤ code && code < 0x110000)

example : hexNumber? ['f', 'F', '1'] = some 4081 := by decide
example : (List.range 16).all (fun n => hexValue? (hexDigit n) == some n) = true := by decide

end MappedQuery.Text
