import MappedQuery.Sql.Evaluation
import Mathlib.Order.Monotone.Basic
import Mathlib.Order.Compare
import Mathlib.Algebra.Order.Ring.Int
import Mathlib.Tactic.Positivity
import Mathlib.Tactic.Ring
import Mathlib.Data.Int.ConditionallyCompleteOrder

/-!
# The order of cells

A database compares numbers by their exact values. Measured in units of the smallest positive
double every number is whole, and the measure is monotone in the bits, so cells of one kind are in
the order of the values they hold, and all cells are in one total preorder, whatever their kinds.
-/
namespace MappedQuery

namespace Double

theorem compare_scaleOfInt (m n : Int) :
    Ord.compare (scaleOfInt m) (scaleOfInt n) = Ord.compare m n := by
  have hmono : StrictMono scaleOfInt := fun a b h =>
    Int.mul_lt_mul_of_pos_right h (Int.natCast_pos.2 (Nat.two_pow_pos _))
  rw [← cmp_eq_compare, ← cmp_eq_compare]
  exact hmono.cmp_map_eq _ _

end Double

namespace Sql.Cell

instance : Std.TransCmp sortOrder :=
  inferInstanceAs (Std.TransCmp (compareLex _ (compareLex _ _)))

@[simp] theorem compare_null_left (c : Cell) : compare null c = none := rfl

@[simp] theorem compare_null_right (c : Cell) : compare c null = none := by
  simp [compare, rank]

@[simp] theorem compare_integer (m n : Int64) :
    compare (integer m) (integer n) = some (Ord.compare m.toInt n.toInt) := by
  simp [compare, rank, sortOrder, compareLex, compareOn, scaled, content,
    Double.compare_scaleOfInt]

@[simp] theorem compare_text (s t : String) :
    compare (text s) (text t) = some (Ord.compare s t) := by
  simp [compare, rank, sortOrder, compareLex, compareOn, scaled, content]

@[simp] theorem compare_boolean (a b : Bool) :
    compare (boolean a) (boolean b) = some (Ord.compare a b) := by
  have hscaled : Ord.compare (boolean a).scaled (boolean b).scaled = Ord.compare a b := by
    rw [scaled, scaled, Double.compare_scaleOfInt]
    cases a <;> cases b <;> rfl
  simp [compare, rank, sortOrder, compareLex, compareOn, content, hscaled]

end Sql.Cell

end MappedQuery
