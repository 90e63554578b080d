import Mathlib.Order.Monotone.Basic
import Mathlib.Tactic.Ring
import MappedQuery.Proofs.ConformingDocuments

/-!
# Rounded whole numbers

A whole number in units of its lowest kept bit is between two powers of two, and is rounded to a
number between them, so the exponent is known from the number of bits. Hence rounding keeps the
order: what it does not tell apart is nearer to one double than that to the next.
-/
namespace MappedQuery.Double

/-- Rounding keeps the order of quotients by one number. -/
theorem roundDiv_mono {m n : Nat} (den : Nat) (h : m ≤ n) :
    roundDiv m den ≤ roundDiv n den := by
  have hquotient : m / den ≤ n / den := Nat.div_le_div_right h
  rcases Nat.lt_or_eq_of_le hquotient with hlt | heq
  · have hbelow : n / den ≤ roundDiv n den := by
      unfold roundDiv
      dsimp only
      split <;> omega
    exact Nat.le_trans (roundDiv_le m den) (Nat.le_trans hlt hbelow)
  · have hremainder : m % den ≤ n % den := by
      have hm := Nat.div_add_mod m den
      have hn := Nat.div_add_mod n den
      rw [heq] at hm
      omega
    unfold roundDiv
    dsimp only
    rw [heq]
    split
    · rename_i hup
      have hup' : (den < 2 * (n % den) || (2 * (n % den) = den && n / den % 2 = 1)) = true := by
        simp only [Bool.or_eq_true, Bool.and_eq_true, decide_eq_true_eq] at hup ⊢
        omega
      rw [if_pos hup']
    · split <;> omega

/-- A whole number in units of its lowest bit that is kept, rounded. -/
def keptBits (n : Nat) : Nat := roundDiv (n * 2 ^ (52 - n.log2)) (2 ^ (n.log2 - 52))

/-- The bits that are kept make a number with the highest of fifty-three bits. -/
theorem keptBits_bounds {n : Nat} (hn : n ≠ 0) :
    exponentBit ≤ keptBits n ∧ keptBits n ≤ 2 * exponentBit := by
  have hlow : 2 ^ n.log2 ≤ n := Nat.log2_self_le hn
  have hhigh : n < 2 ^ (n.log2 + 1) := Nat.lt_log2_self
  have hbit : exponentBit = 2 ^ 52 := by decide
  have hpos : 0 < 2 ^ (n.log2 - 52) := Nat.two_pow_pos _
  have hquotient : 2 ^ 52 ≤ n * 2 ^ (52 - n.log2) / 2 ^ (n.log2 - 52) ∧
      n * 2 ^ (52 - n.log2) / 2 ^ (n.log2 - 52) < 2 ^ 53 := by
    rw [Nat.le_div_iff_mul_le hpos, Nat.div_lt_iff_lt_mul hpos, ← Nat.pow_add, ← Nat.pow_add]
    constructor
    · calc 2 ^ (52 + (n.log2 - 52)) = 2 ^ (n.log2 + (52 - n.log2)) := by congr 1; omega
        _ = 2 ^ n.log2 * 2 ^ (52 - n.log2) := Nat.pow_add ..
        _ ≤ n * 2 ^ (52 - n.log2) := Nat.mul_le_mul_right _ hlow
    · calc n * 2 ^ (52 - n.log2) < 2 ^ (n.log2 + 1) * 2 ^ (52 - n.log2) :=
            Nat.mul_lt_mul_of_pos_right hhigh (Nat.two_pow_pos _)
        _ = 2 ^ (n.log2 + 1 + (52 - n.log2)) := (Nat.pow_add ..).symm
        _ = 2 ^ (53 + (n.log2 - 52)) := by congr 1; omega
  rw [hbit]
  unfold keptBits roundDiv
  dsimp only
  split <;> omega

/-- A number in units of a power of two, as a quotient. -/
private theorem shifted_eq (n : Nat) (e : Int) :
    (if e < 0 then (n <<< (-e).toNat, 1) else (n, 1 <<< e.toNat)) =
      (n * 2 ^ (-e).toNat, 2 ^ e.toNat) := by
  split
  · have hzero : e.toNat = 0 := by omega
    rw [Nat.shiftLeft_eq, hzero, Nat.pow_zero]
  · have hzero : (-e).toNat = 0 := by omega
    rw [Nat.one_shiftLeft, hzero, Nat.pow_zero, Nat.mul_one]

/-- The exponent is known from the number of bits. -/
theorem roundRatio_one {n : Nat} (hn : n ≠ 0) :
    roundRatio n 1 = min ((n.log2 + 1022) * exponentBit + keptBits n) infinityMagnitude := by
  have hone : Nat.log2 1 = 0 := by decide
  have hlow : max ((n.log2 : Int) - (0 : Nat) - 53) (-1074) = (n.log2 : Int) - 53 := by omega
  have hpos : 0 < 2 ^ ((n.log2 : Int) - 53).toNat := Nat.two_pow_pos _
  have hlarge : 2 * exponentBit ≤
      n * 2 ^ (-((n.log2 : Int) - 53)).toNat / 2 ^ ((n.log2 : Int) - 53).toNat := by
    have hbit : 2 * exponentBit = 2 ^ 53 := by decide
    rw [hbit, Nat.le_div_iff_mul_le hpos, ← Nat.pow_add]
    calc 2 ^ (53 + ((n.log2 : Int) - 53).toNat)
          = 2 ^ (n.log2 + (-((n.log2 : Int) - 53)).toNat) := by congr 1; omega
      _ = 2 ^ n.log2 * 2 ^ (-((n.log2 : Int) - 53)).toNat := Nat.pow_add ..
      _ ≤ n * 2 ^ (-((n.log2 : Int) - 53)).toNat :=
          Nat.mul_le_mul_right _ (Nat.log2_self_le hn)
  have hup : (-((n.log2 : Int) - 53 + 1)).toNat = 52 - n.log2 := by omega
  have hdown : ((n.log2 : Int) - 53 + 1).toNat = n.log2 - 52 := by omega
  have hexponent : ((n.log2 : Int) - 53 + 1 + 1074).toNat = n.log2 + 1022 := by omega
  unfold roundRatio keptBits
  rw [if_neg hn, hone]
  dsimp only
  simp only [shifted_eq, hlow]
  rw [if_pos hlarge, hup, hdown, hexponent]

/-- Rounding keeps the order of natural numbers. -/
theorem roundRatio_one_mono : Monotone fun n => roundRatio n 1 := by
  intro m n h
  rcases Nat.eq_zero_or_pos m with rfl | hm
  · exact Nat.zero_le _
  have hm : m ≠ 0 := by omega
  have hn : n ≠ 0 := by omega
  have hlog : m.log2 ≤ n.log2 := by
    rw [Nat.le_log2 hn]
    exact Nat.le_trans (Nat.log2_self_le hm) h
  dsimp only
  rw [roundRatio_one hm, roundRatio_one hn]
  refine Nat.le_min.2 ⟨Nat.le_trans (Nat.min_le_left _ _) ?_, Nat.min_le_right _ _⟩
  rcases Nat.lt_or_eq_of_le hlog with hlt | heq
  · have hhigh := (keptBits_bounds hm).2
    have hlow := (keptBits_bounds hn).1
    have hstep : (m.log2 + 1 + 1022) * exponentBit ≤ (n.log2 + 1022) * exponentBit :=
      Nat.mul_le_mul_right _ (by omega)
    have hsplit : (m.log2 + 1 + 1022) * exponentBit = (m.log2 + 1022) * exponentBit + exponentBit := by
      ring
    omega
  · have hkept : keptBits m ≤ keptBits n := by
      unfold keptBits
      rw [heq]
      exact roundDiv_mono _ (Nat.mul_le_mul_right _ h)
    rw [heq]
    exact Nat.add_le_add_left hkept _

theorem roundRatio_lt_signBit (num den : Nat) : roundRatio num den < signBit := by
  have hinfinity : infinityMagnitude < signBit := by decide
  unfold roundRatio
  split
  · decide
  · exact Nat.lt_of_le_of_lt (Nat.min_le_right _ _) hinfinity

theorem isNegative_ofMagnitude (negative : Bool) {m : Nat} (h : m < signBit) :
    (ofMagnitude negative m).isNegative = negative := by
  have hsign : signBit = 2 ^ 63 := rfl
  unfold ofMagnitude isNegative
  rw [UInt64.toNat_ofNat']
  rw [hsign] at h ⊢
  cases negative <;> simp <;> omega

/-- The place of a whole number's double in the order of doubles. -/
theorem orderKey_ofInt (n : Int) :
    (ofInt n).orderKey = if n < 0 then -(roundRatio n.natAbs 1 : Int) else roundRatio n.natAbs 1 := by
  have hlt := roundRatio_lt_signBit n.natAbs 1
  unfold orderKey ofInt ofRatio
  rw [isNegative_ofMagnitude _ hlt, magnitude_ofMagnitude _ hlt]
  simp

/-- Rounding to the nearest double keeps the order of whole numbers. -/
theorem orderKey_ofInt_mono {m n : Int} (h : m ≤ n) :
    (ofInt m).orderKey ≤ (ofInt n).orderKey := by
  have hmono {a b : Nat} (hab : a ≤ b) : (roundRatio a 1 : Int) ≤ roundRatio b 1 :=
    Int.ofNat_le.2 (roundRatio_one_mono hab)
  rw [orderKey_ofInt, orderKey_ofInt]
  split
  · split
    · have := @hmono n.natAbs m.natAbs (by omega)
      omega
    · omega
  · rw [if_neg (by omega)]
    exact hmono (by omega)

theorem isNaN_ofInt (n : Int) : (ofInt n).isNaN = false := by
  unfold ofInt ofRatio isNaN
  rw [magnitude_ofMagnitude _ (roundRatio_lt_signBit _ _), decide_eq_false_iff_not, Nat.not_lt]
  unfold roundRatio
  split
  · exact Nat.zero_le _
  · exact Nat.min_le_right _ _

end MappedQuery.Double
