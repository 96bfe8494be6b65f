import QueryOptimizer.Literal

/-!
Truth values of three-valued logic, and comparisons of constants.
-/
namespace QueryOptimizer

inductive Truth where
  | holds
  | fails
  /-- The result of comparing with null. -/
  | unknown
  deriving DecidableEq, Repr

namespace Truth

/-- The negation of unknown is unknown. -/
def not : Truth → Truth
  | holds => fails
  | fails => holds
  | unknown => unknown

def ofBool (value : Bool) : Truth :=
  if value then holds else fails

def text : Truth → String
  | holds => "true"
  | fails => "false"
  | unknown => "unknown"

def outline : Truth → String
  | holds => "True"
  | fails => "False"
  | unknown => "Unknown"

end Truth

inductive Comparison where
  | eq
  | notEq
  | lt
  | lte
  | gt
  | gte
  deriving DecidableEq, Repr

namespace Comparison

def all : List Comparison :=
  [eq, notEq, lt, lte, gt, gte]

/-- The symbol of a comparison in the textual syntax. -/
def symbol : Comparison → String
  | eq => "="
  | notEq => "<>"
  | lt => "<"
  | lte => "<="
  | gt => ">"
  | gte => ">="

/-- The comparison with the given symbol. -/
def ofSymbol? (symbol : String) : Option Comparison :=
  all.find? fun comparison => comparison.symbol = symbol

/-- The comparison that holds exactly when this one does not, on operands other than null. -/
def negate : Comparison → Comparison
  | eq => notEq
  | notEq => eq
  | lt => gte
  | lte => gt
  | gt => lte
  | gte => lt

/-- Whether a comparison holds of operands that are ordered in the given way. -/
def holdsFor : Comparison → Ordering → Bool
  | eq, ordering => ordering = .eq
  | notEq, ordering => ordering ≠ .eq
  | lt, ordering => ordering = .lt
  | lte, ordering => ordering ≠ .gt
  | gt, ordering => ordering = .gt
  | gte, ordering => ordering ≠ .lt

/-- How two constants of one type are ordered; constants of different types, and nulls, are not. -/
def ordering? : Literal → Literal → Option Ordering
  | .bool left, .bool right => some (compare left right)
  | .int left, .int right => some (compare left right)
  | .string left, .string right => some (compare left right)
  | _, _ => none

/-- Compares two constants. A null makes the result unknown; constants of different types have no
result. -/
def eval? (comparison : Comparison) (left right : Literal) : Option Truth :=
  if left.isNull || right.isNull then some .unknown
  else (ordering? left right).map fun ordering => .ofBool (comparison.holdsFor ordering)

def outline : Comparison → String
  | eq => "Eq"
  | notEq => "NotEq"
  | lt => "Lt"
  | lte => "Lte"
  | gt => "Gt"
  | gte => "Gte"

end Comparison
end QueryOptimizer
