import QueryOptimizer.Proofs.Expression.Grammar
import QueryOptimizer.Text.Numeral

/-!
Numerals are read as the grammar has them: what has the form of a number, and is within bounds, is one.
-/
namespace QueryOptimizer.Text

theorem digits?_eq_some_iff {digits : List Char} {n : Nat} :
    digits? digits = some n ↔
      digits ≠ [] ∧ (∀ c ∈ digits, c.isDigit = true) ∧ Nat.ofDigitChars 10 digits 0 = n := by
  cases digits with
  | nil => simp [digits?]
  | cons c rest =>
    simp only [digits?, Option.ite_none_right_eq_some, Option.some.injEq, List.all_eq_true]
    simp [Nat.ofDigitChars]

/-- A sign is not read as a digit. -/
theorem digits?_of_sign {c : Char} (sign : c.isDigit = false) (rest : List Char) : digits? (c :: rest) = none := by
  simp [digits?, sign]

theorem numeral_iff {signs : List (List Char)} {word : String} {n : Nat} :
    Numeral signs word n ↔ ∃ sign ∈ signs, ∃ digits, word.toList = sign ++ digits ∧ digits? digits = some n := by
  simp only [Numeral, digits?_eq_some_iff]

/-- A numeral without a minus sign is read after an optional plus sign. -/
theorem unsigned_iff {word : String} {n : Nat} :
    Numeral [[], ['+']] word n ↔
      (match word.toList with
        | '+' :: digits => digits? digits
        | digits => digits? digits) = some n := by
  simp only [numeral_iff, List.mem_cons, List.not_mem_nil, or_false, exists_eq_or_imp, exists_eq_left,
    List.nil_append, exists_eq_left']
  split
  · rename_i digits signed
    simp [signed, digits?_of_sign]
  · rename_i unsigned
    have other (digits : List Char) : ¬ word.toList = '+' :: digits := unsigned digits
    simp [other]

theorem negative_iff {word : String} {n : Nat} :
    Numeral [['-']] word n ↔ ∃ digits, word.toList = '-' :: digits ∧ digits? digits = some n := by
  simp [numeral_iff]

theorem position?_eq_some_iff {word : String} {position : Nat} :
    position? word.toList = some position ↔ WritesPosition word position := by
  rw [WritesPosition, unsigned_iff]
  unfold position?
  rw [Option.filter_eq_some_iff, decide_eq_true_eq]
  rfl

theorem integer?_eq_some_iff {word : String} {value : Int64} :
    integer? word.toList = some value ↔ WritesInteger word value := by
  simp only [WritesInteger, unsigned_iff, negative_iff]
  unfold integer?
  split
  · rename_i digits signed
    simp [signed, digits?_of_sign, Option.bind_eq_some_iff, Integer64.ofInt?_eq_some_iff]
  · rename_i digits signed
    simp [signed, Option.bind_eq_some_iff, Integer64.ofInt?_eq_some_iff]
  · rename_i notNegative _
    have other (digits : List Char) : ¬ word.toList = '-' :: digits := notNegative digits
    simp [other, Option.bind_eq_some_iff, Integer64.ofInt?_eq_some_iff]

/-- A printed number is a numeral for it, after any sign. -/
theorem numeral_repr {signs : List (List Char)} {sign : List Char} (among : sign ∈ signs) {word : String} {n : Nat}
    (parts : word.toList = sign ++ n.repr.toList) : Numeral signs word n := by
  rw [Nat.toList_repr] at parts
  refine ⟨sign, among, Nat.toDigits 10 n, parts, Nat.toDigits_ne_nil, ?_, ?_⟩
  · exact fun c member => Nat.isDigit_of_mem_toDigits (by decide) (by decide) member
  · exact Nat.ofDigitChars_toDigits (by decide) (by decide)

theorem writesPosition_repr {position : Nat} (bounded : position < 2 ^ 64) :
    WritesPosition position.repr position :=
  ⟨numeral_repr (List.mem_cons_self ..) rfl, bounded⟩

theorem writesInteger_toString (value : Int64) : WritesInteger (toString value) value := by
  show WritesInteger (Int.repr value.toInt) value
  rw [Int.repr_eq_if]
  split
  · rename_i nonnegative
    exact .inl ⟨value.toInt.toNat, numeral_repr (List.mem_cons_self ..) rfl, (Int.toNat_of_nonneg nonnegative).symm⟩
  · rename_i negative
    refine .inr ⟨(-value.toInt).toNat, numeral_repr (List.mem_singleton_self _) ?_, by omega⟩
    exact String.toList_append

end QueryOptimizer.Text
