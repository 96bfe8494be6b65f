/-!
Integers of 64 bits: which mathematical integers have one.
-/
namespace QueryOptimizer.Integer64

/-- The word with value `n`, if `n` is within the 64-bit signed range. -/
def ofInt? (n : Int) : Option Int64 :=
  if Int64.minValue.toInt ≤ n ∧ n ≤ Int64.maxValue.toInt then some (Int64.ofInt n) else none

theorem toInt_of_ofInt? {n : Int} {word : Int64} (found : ofInt? n = some word) :
    word.toInt = n := by
  unfold ofInt? at found
  split at found
  · rename_i bounds
    rw [Int64.toInt_minValue, Int64.toInt_maxValue] at bounds
    cases found
    exact Int64.toInt_ofInt_of_le bounds.1 (Int.lt_of_le_sub_one bounds.2)
  · cases found

theorem ofInt?_toInt (word : Int64) : ofInt? word.toInt = some word := by
  have lower := word.minValue_le_toInt
  have upper := word.toInt_le
  rw [ofInt?, if_pos ⟨lower, upper⟩, Int64.ofInt_toInt]

theorem ofInt?_eq_some_iff {n : Int} {word : Int64} : ofInt? n = some word ↔ word.toInt = n := by
  constructor
  · exact toInt_of_ofInt?
  · intro same
    exact same ▸ ofInt?_toInt word

end QueryOptimizer.Integer64
