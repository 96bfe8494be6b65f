import QueryOptimizer.Constraint
import QueryOptimizer.Parameters
import QueryOptimizer.Predicate.Basic

/-!
What expressions mean. Evaluation is strict and partial: an operation has no value if an operand has
none, and arithmetic has none where the exact result needs more than 64 bits.
-/
namespace QueryOptimizer

/-- What a scalar can evaluate to. -/
inductive Value where
  | null
  | bool (value : Bool)
  | int (value : Int64)
  | string (value : String)
  | record (components : List Value)

namespace Value

def ofLiteral : Literal → Value
  | .null => null
  | .bool value => bool value
  | .int value => int value
  | .string value => string value

/-- The constant with this value; a record has none. -/
def literal? : Value → Option Literal
  | null => some .null
  | bool value => some (.bool value)
  | int value => some (.int value)
  | string value => some (.string value)
  | record _ => none

theorem literal?_ofLiteral (literal : Literal) : (ofLiteral literal).literal? = some literal := by
  cases literal <;> rfl

def isNull : Value → Bool
  | null => true
  | _ => false

theorem isNull_ofLiteral (literal : Literal) : (ofLiteral literal).isNull = literal.isNull := by
  cases literal <;> rfl

/-- The exact result of arithmetic, if it fits into 64 bits. -/
def ofInt? (result : Int) : Option Value :=
  (Integer64.ofInt? result).map int

/-- Arithmetic on one operand: null for null. -/
def unary (exact : Int → Int) : Value → Option Value
  | null => some null
  | int operand => ofInt? (exact operand.toInt)
  | _ => none

/-- Arithmetic on two operands: null if one is null and the other is null or an integer. -/
def binary (exact : Int → Int → Int) : Value → Value → Option Value
  | null, null | null, int _ | int _, null => some null
  | int left, int right => ofInt? (exact left.toInt right.toInt)
  | _, _ => none

end Value

/-- The value of a function on the values of its arguments. -/
def ScalarFunction.apply : ScalarFunction → List Value → Option Value
  | neg, [operand] => operand.unary fun operand => -operand
  | abs, [operand] => operand.unary fun operand => operand.natAbs
  | add, [left, right] => left.binary (· + ·) right
  | sub, [left, right] => left.binary (· - ·) right
  | mul, [left, right] => left.binary (· * ·) right
  | record, components => some (.record components)
  | field position, [.record components] => components[position]?
  | _, _ => none

/-- What expressions are evaluated under: a value for every column of every quantifier, and the values
that parameters are bound to. -/
structure Valuation where
  row : Alias → String → Value
  parameters : Parameters

namespace Scalar

/-- The value of a node, given those of its arguments. -/
def apply (valuation : Valuation) : Scalar → List Value → Option Value
  | literal _ value, _ => some (.ofLiteral value)
  | column _ quantifier name, _ => some (valuation.row quantifier name)
  | parameter _ symbol, _ => (valuation.parameters.get? symbol).map .ofLiteral
  | call _ function _, arguments => function.apply arguments

mutual

def eval (valuation : Valuation) : Scalar → Option Value
  | literal id value => apply valuation (literal id value) []
  | column id quantifier name => apply valuation (column id quantifier name) []
  | parameter id symbol => apply valuation (parameter id symbol) []
  | call _ function arguments => (evalEach valuation arguments).bind function.apply

def evalEach (valuation : Valuation) : List Scalar → Option (List Value)
  | [] => some []
  | scalar :: rest => do return (← eval valuation scalar) :: (← evalEach valuation rest)

end

theorem evalEach_eq (valuation : Valuation) (scalars : List Scalar) :
    evalEach valuation scalars = scalars.mapM (eval valuation) := by
  induction scalars with
  | nil => rfl
  | cons scalar rest ih => rw [evalEach, List.mapM_cons, ih]

theorem eval_eq (valuation : Valuation) (scalar : Scalar) :
    eval valuation scalar = (scalar.children.mapM (eval valuation)).bind (apply valuation scalar) := by
  cases scalar with
  | call id function arguments =>
    rw [eval, evalEach_eq]
    rfl
  | literal | column | parameter => rfl

end Scalar

namespace Truth

/-- Kleene's conjunction: fails if an operand does, and holds if both do. -/
def and : Truth → Truth → Truth
  | fails, _ | _, fails => fails
  | holds, holds => holds
  | _, _ => unknown

/-- Kleene's disjunction: holds if an operand does, and fails if both do. -/
def or : Truth → Truth → Truth
  | holds, _ | _, holds => holds
  | fails, fails => fails
  | _, _ => unknown

def conjunction (truths : List Truth) : Truth :=
  truths.foldr and holds

def disjunction (truths : List Truth) : Truth :=
  truths.foldr or fails

end Truth

/-- Comparing with null is unknown; otherwise constants of one type are compared. -/
def Comparison.apply (comparison : Comparison) (left right : Value) : Option Truth :=
  if left.isNull || right.isNull then some .unknown
  else do comparison.eval? (← left.literal?) (← right.literal?)

namespace Predicate

/-- The truth of a node, given that of its operands. -/
def apply (valuation : Valuation) : Predicate → List Truth → Option Truth
  | constant _ truth, _ => some truth
  | and _ _, truths => some (.conjunction truths)
  | or _ _, truths => some (.disjunction truths)
  | not _ _, [truth] => some truth.not
  | not _ _, _ => none
  | compare _ comparison left right, _ => do
    comparison.apply (← left.eval valuation) (← right.eval valuation)
  | isNull _ operand, _ => do return .ofBool (← operand.eval valuation).isNull

mutual

def eval (valuation : Valuation) : Predicate → Option Truth
  | constant id truth => apply valuation (constant id truth) []
  | and _ operands => (evalEach valuation operands).map .conjunction
  | or _ operands => (evalEach valuation operands).map .disjunction
  | not _ operand => (eval valuation operand).map .not
  | compare id comparison left right => apply valuation (compare id comparison left right) []
  | isNull id operand => apply valuation (isNull id operand) []

def evalEach (valuation : Valuation) : List Predicate → Option (List Truth)
  | [] => some []
  | predicate :: rest => do return (← eval valuation predicate) :: (← evalEach valuation rest)

end

theorem evalEach_eq (valuation : Valuation) (predicates : List Predicate) :
    evalEach valuation predicates = predicates.mapM (eval valuation) := by
  induction predicates with
  | nil => rfl
  | cons predicate rest ih => rw [evalEach, List.mapM_cons, ih]

theorem eval_eq (valuation : Valuation) (predicate : Predicate) :
    eval valuation predicate =
      (predicate.children.mapM (eval valuation)).bind (apply valuation predicate) := by
  cases predicate with
  | and id operands | or id operands =>
    rw [eval, evalEach_eq, Option.map_eq_bind]
    rfl
  | not id operand =>
    rw [eval, children, List.mapM_cons, List.mapM_nil]
    cases eval valuation operand <;> rfl
  | constant | compare | isNull => rfl

end Predicate

/-- Whether an assumption is true of the parameters. Nothing is assumed of a custom one. -/
def Condition.Holds (parameters : Parameters) : Condition → Prop
  | isNull parameter => parameters.get? parameter = some .null
  | isNotNull parameter => parameters.get? parameter ≠ some .null
  | equals parameter value => parameters.get? parameter = some value
  | custom _ => True

instance (parameters : Parameters) (condition : Condition) : Decidable (condition.Holds parameters) := by
  cases condition <;> unfold Condition.Holds <;> infer_instance

def Constraint.Holds (parameters : Parameters) (constraint : Constraint) : Prop :=
  ∀ condition ∈ constraint.conditions, condition.Holds parameters

end QueryOptimizer
