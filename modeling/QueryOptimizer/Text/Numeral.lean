import QueryOptimizer.Integer64

/-!
Decimal numerals: an optional sign followed by one or more ASCII digits, leading zeros included.
-/
namespace QueryOptimizer.Text

/-- The number that one or more digits stand for. -/
def digits? : List Char → Option Nat
  | [] => none
  | digits =>
    if digits.all Char.isDigit then
      some (digits.foldl (fun value digit => 10 * value + (digit.toNat - '0'.toNat)) 0)
    else none

/-- A position: digits after an optional plus sign, as far as 64 bits reach. -/
def position? (text : List Char) : Option Nat :=
  let value? := match text with
    | '+' :: digits => digits? digits
    | digits => digits? digits
  value?.filter (· < UInt64.size)

/-- A signed integer: digits after an optional sign, within 64 bits. -/
def integer? (text : List Char) : Option Int64 :=
  match text with
  | '-' :: digits => (digits? digits).bind fun value => Integer64.ofInt? (-value)
  | '+' :: digits => (digits? digits).bind fun value => Integer64.ofInt? value
  | digits => (digits? digits).bind fun value => Integer64.ofInt? value

end QueryOptimizer.Text
