/-!
# Whole numbers of sixty-four bits

`toInt64?` is the passage from all whole numbers to those of sixty-four bits. It fails where a
number does not fit and never wraps.
-/
namespace MappedQuery

/-- The whole number in sixty-four bits, if it fits. -/
def toInt64? (n : Int) : Option Int64 :=
  if Int64.minValue.toInt ≤ n ∧ n ≤ Int64.maxValue.toInt then some (Int64.ofInt n) else none

/-- What fits keeps its value. -/
theorem toInt_of_toInt64? {n : Int} {m : Int64} (h : toInt64? n = some m) : m.toInt = n := by
  unfold toInt64? at h
  split at h
  · rename_i hn
    cases h
    exact Int64.toInt_ofInt_of_le hn.1 (Int.lt_add_one_of_le hn.2)
  · cases h

/-- Every number of sixty-four bits fits. -/
theorem toInt64?_toInt (m : Int64) : toInt64? m.toInt = some m := by
  unfold toInt64?
  rw [if_pos ⟨m.minValue_le_toInt, m.toInt_le⟩, Int64.ofInt_toInt]

end MappedQuery
