import QueryOptimizer.Integer64
import QueryOptimizer.Literal

/-!
The functions that scalar expressions apply, and their values on constants.
-/
namespace QueryOptimizer

inductive ScalarFunction where
  | neg
  | abs
  | add
  | sub
  | mul
  /-- Builds a record of its arguments. -/
  | record
  /-- Extracts the component of a record at a position. -/
  | field (position : Nat)
  deriving DecidableEq, Repr

namespace ScalarFunction

/-- The name of a function in the textual syntax. -/
def name : ScalarFunction → String
  | neg => "neg"
  | abs => "abs"
  | add => "+"
  | sub => "-"
  | mul => "*"
  | record => "record"
  | field _ => "field"

/-- How many arguments a function takes, unless it takes any number. -/
def arity? : ScalarFunction → Option Nat
  | neg | abs | field _ => some 1
  | add | sub | mul => some 2
  | record => none

/-- The exact result of integer arithmetic on one operand. -/
def exactUnary? : ScalarFunction → Int → Option Int
  | neg, operand => some (-operand)
  | abs, operand => some operand.natAbs
  | _, _ => none

/-- The exact result of integer arithmetic on two operands. -/
def exactBinary? : ScalarFunction → Int → Int → Option Int
  | add, left, right => some (left + right)
  | sub, left, right => some (left - right)
  | mul, left, right => some (left * right)
  | _, _, _ => none

def isUnaryArithmetic : ScalarFunction → Bool
  | neg | abs => true
  | _ => false

def isBinaryArithmetic : ScalarFunction → Bool
  | add | sub | mul => true
  | _ => false

/-- Applies a function of one operand to a constant. There is no value if the exact result needs more
than 64 bits, or if the function does not apply. -/
def evalUnary? (function : ScalarFunction) : Literal → Option Literal
  | .null => if function.isUnaryArithmetic then some .null else none
  | .int operand =>
    ((function.exactUnary? operand.toInt).bind Integer64.ofInt?).map Literal.int
  | _ => none

/-- Applies a function of two operands to constants. Null propagates; there is no value if the exact
result needs more than 64 bits, or if the function does not apply. -/
def evalBinary? (function : ScalarFunction) : Literal → Literal → Option Literal
  | .null, .null => if function.isBinaryArithmetic then some .null else none
  | .null, .int _ => if function.isBinaryArithmetic then some .null else none
  | .int _, .null => if function.isBinaryArithmetic then some .null else none
  | .int left, .int right =>
    ((function.exactBinary? left.toInt right.toInt).bind Integer64.ofInt?).map Literal.int
  | _, _ => none

def outline : ScalarFunction → String
  | neg => "Neg"
  | abs => "Abs"
  | add => "Add"
  | sub => "Sub"
  | mul => "Mul"
  | record => "Record"
  | field position => Text.applicationOutline "Field" [toString position]

end ScalarFunction
end QueryOptimizer
