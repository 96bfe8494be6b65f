import QueryOptimizer.Scalar.Basic
import QueryOptimizer.Simplification.BottomUp

/-!
The rules for scalar expressions. A rule that builds its result out of descendants of a node carries
over the constraints that those descendants were yielded under, so that a parameter inlined deep in
an expression stays visible after its value has been folded away.
-/
namespace QueryOptimizer.Scalar

abbrev Action := Call Scalar → RuleM Unit (Response Scalar)

abbrev ScalarRule := Rule Scalar ScalarKind Action

/-- Replaces a parameter that is constant for the execution by its value, under the constraint that
the parameter keeps that value. -/
def inlineConstantParameter : ScalarRule where
  name := "InlineConstantParameter"
  pattern := .operator .parameter none
  rootOperator? := some .parameter
  action call := do
    let .parameter _ symbol := call.current | return .nothing
    if !call.environment.constants.contains symbol then return .nothing
    let some value := call.environment.parameters.get? symbol | return .nothing
    let condition := if value.isNull then Condition.isNull symbol else .equals symbol value
    return .only (← newLiteral value) (.of condition)

/-- `(field i (record a0 .. an))` becomes `ai`. -/
def composeFieldOverRecord : ScalarRule where
  name := "ComposeFieldOverRecord"
  pattern := .exactly .field none [.operator .record (some "record")]
  rootOperator? := some .field
  action call := do
    let .call _ (.field position) _ := call.current | return .nothing
    let record ← call.get "record"
    let some component := record.children[position]? | return .nothing
    return .only component (call.carried [record])

def isUnaryOverLiteral : Scalar → Bool
  | .call _ function [argument] => function.isUnaryArithmetic && argument.isLiteral
  | _ => false

/-- Evaluates a function of one operand over a constant. -/
def foldUnaryLiteral : ScalarRule where
  name := "FoldUnaryLiteral"
  pattern := .filter "unary function over a constant" isUnaryOverLiteral none
  action call := do
    let .call _ function [argument] := call.current | return .nothing
    let some value := argument.asLiteral?.bind function.evalUnary? | return .nothing
    return .only (← newLiteral value) (call.carried [argument])

def isArithmetic : Scalar → Bool
  | .call _ function [_, _] => function.isBinaryArithmetic
  | _ => false

def isArithmeticOverLiterals (scalar : Scalar) : Bool :=
  scalar.isArithmetic && scalar.children.all isLiteral

/-- Evaluates a function of two operands over constants. -/
def foldBinaryLiterals : ScalarRule where
  name := "FoldBinaryLiterals"
  pattern := .filter "arithmetic over constants" isArithmeticOverLiterals none
  action call := do
    let .call _ function [left, right] := call.current | return .nothing
    let some leftValue := left.asLiteral? | return .nothing
    let some rightValue := right.asLiteral? | return .nothing
    let some value := function.evalBinary? leftValue rightValue | return .nothing
    return .only (← newLiteral value) (call.carried [left, right])

/-- The operand that an operation keeps, and the identity that it drops: `x` and the constant in
`(+ x 0)`, `(+ 0 x)`, `(- x 0)`, `(* x 1)` and `(* 1 x)`. -/
def keptAndDropped? : Scalar → Option (Scalar × Scalar)
  | .call _ .add [left, right] =>
    if right.isInt 0 then some (left, right)
    else if left.isInt 0 then some (right, left)
    else none
  | .call _ .sub [left, right] => if right.isInt 0 then some (left, right) else none
  | .call _ .mul [left, right] =>
    if right.isInt 1 then some (left, right)
    else if left.isInt 1 then some (right, left)
    else none
  | _ => none

/-- Replaces an operation on an identity element by its other operand. -/
def eliminateArithmeticIdentity : ScalarRule where
  name := "EliminateArithmeticIdentity"
  pattern := .filter "arithmetic" isArithmetic none
  action call := do
    let some (kept, dropped) := keptAndDropped? call.current | return .nothing
    return .only kept (call.carried [dropped])

def allRules : List ScalarRule :=
  [inlineConstantParameter, composeFieldOverRecord, foldUnaryLiteral, foldBinaryLiterals,
    eliminateArithmeticIdentity]

/-- The default rules in the order they are added, each with the rules it has to come after. -/
def defaultRuleBuilder : RuleSetBuilder Scalar ScalarKind Action :=
  RuleSetBuilder.empty
    |>.add inlineConstantParameter
    |>.add composeFieldOverRecord
    |>.add foldUnaryLiteral
    |>.add foldBinaryLiterals
    |>.addAfter eliminateArithmeticIdentity [foldBinaryLiterals.name]

/-- The simplifications of scalar expressions. -/
def defaultRules : Except Error (RuleSet Scalar ScalarKind Action) :=
  defaultRuleBuilder.build

mutual

/-- A weight that every replacement by one of the rules lowers. -/
def weight : Scalar → Nat
  | literal _ _ => 1
  | column _ _ _ => 1
  | parameter _ _ => 2
  | call _ _ arguments => 1 + weightEach arguments

def weightEach : List Scalar → Nat
  | [] => 0
  | scalar :: rest => weight scalar + weightEach rest

end

/-- The setting in which scalar expressions are simplified: no chain of replacements is longer than
the weight of its first node. -/
def setting (environment : Environment) (rules : RuleSet Scalar ScalarKind Action) :
    Setting Scalar ScalarKind Action :=
  { environment, rules, patience := weight }

end QueryOptimizer.Scalar
