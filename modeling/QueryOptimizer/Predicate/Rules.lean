import QueryOptimizer.Predicate.Basic
import QueryOptimizer.Scalar.Rules
import QueryOptimizer.Simplification.Exploration

/-!
The rules for predicates: the default simplifications, and the normalization that also pushes
negations down through conjunctions and disjunctions.
-/
namespace QueryOptimizer.Predicate

abbrev Action := Call Predicate → RuleM Unit (Response Predicate)

abbrev PredicateRule := Rule Predicate PredicateKind Action

/-- Decides a null test of a parameter that is constant for the execution, under the constraint that
the parameter stays null, or stays other than null. -/
def constantParameterNullTest : PredicateRule where
  name := "ConstantParameterNullTest"
  pattern := .operator .isNull none
  rootOperator? := some .isNull
  action call := do
    let .isNull _ (.parameter _ symbol) := call.current | return .nothing
    if !call.environment.constants.contains symbol then return .nothing
    let some value := call.environment.parameters.get? symbol | return .nothing
    let condition := if value.isNull then Condition.isNull symbol else .isNotNull symbol
    return .only (← newConstant (.ofBool value.isNull)) (.of condition)

/-- Simplifies the scalars of a comparison or null test with the given rules. -/
def simplifyOperands (scalarRules : RuleSet Scalar ScalarKind Scalar.Action) : PredicateRule where
  name := "SimplifyOperands"
  pattern := .filter "comparison or null test" (fun predicate => !predicate.scalars.isEmpty) none
  action call := do
    let scalars := call.current.scalars
    let simplified ← scalars.mapM (simplify (Scalar.setting call.environment scalarRules))
    let values := simplified.map Constrained.value
    if (scalars.zip values).all fun pair => sameNode pair.1 pair.2 then return .nothing
    let constraint := (simplified.map Constrained.constraint).foldl Constraint.compose .none
    return .only (← call.current.withScalars values) constraint

/-- Decides a comparison of two constants. -/
def foldConstantComparison : PredicateRule where
  name := "FoldConstantComparison"
  pattern := .operator .compare none
  rootOperator? := some .compare
  action call := do
    let .compare _ comparison left right := call.current | return .nothing
    let some leftValue := left.asLiteral? | return .nothing
    let some rightValue := right.asLiteral? | return .nothing
    let some truth := comparison.eval? leftValue rightValue | return .nothing
    return .only (← newConstant truth) .none

/-- Decides a null test of a constant. -/
def foldConstantNullTest : PredicateRule where
  name := "FoldConstantNullTest"
  pattern := .operator .isNull none
  rootOperator? := some .isNull
  action call := do
    let .isNull _ operand := call.current | return .nothing
    let some value := operand.asLiteral? | return .nothing
    return .only (← newConstant (.ofBool value.isNull)) .none

/-- `(not c)` becomes the negation of `c`, for a constant `c`. -/
def notOverConstant : PredicateRule where
  name := "NotOverConstant"
  pattern := .exactly .not none [.operator .constant (some "constant")]
  rootOperator? := some .not
  action call := do
    let constant ← call.get "constant"
    let some truth := constant.asConstant? | return .nothing
    return .only (← newConstant truth.not) (call.carried [constant])

/-- `(not (not p))` becomes `p`. -/
def doubleNegation : PredicateRule where
  name := "DoubleNegation"
  pattern := .exactly .not none [.exactly .not (some "inner") [.any (some "operand")]]
  rootOperator? := some .not
  action call := do
    let inner ← call.get "inner"
    let operand ← call.get "operand"
    return .only operand (call.carried [inner])

/-- `(not (op a b))` becomes the negated comparison of `a` and `b`: both are unknown when an operand
is null. -/
def notOverComparison : PredicateRule where
  name := "NotOverComparison"
  pattern := .exactly .not none [.operator .compare (some "comparison")]
  rootOperator? := some .not
  action call := do
    let inner ← call.get "comparison"
    let .compare _ comparison left right := inner | return .nothing
    return .only (← newCompare comparison.negate left right) (call.carried [inner])

/-- A new conjunction or disjunction. -/
def newConnective [Monad m] [MonadFresh m] (kind : PredicateKind) (operands : List Predicate) :
    m Predicate :=
  match kind with
  | .or => newOr operands
  | _ => newAnd operands

/-- Whether a predicate and one of its operands are both of the given kind. -/
def isNested (kind : PredicateKind) (predicate : Predicate) : Bool :=
  predicate.kind = kind && predicate.children.any fun child => child.kind = kind

/-- Pulls the operands of a nested connective up into the enclosing connective of the same kind. -/
def flatten (name description : String) (kind : PredicateKind) : PredicateRule where
  name := name
  pattern := .filter description (isNested kind) none
  rootOperator? := some kind
  action call := do
    let operands := call.current.children
    let flattened := operands.flatMap fun operand =>
      if operand.kind = kind then operand.children else [operand]
    let nested := operands.filter fun operand => operand.kind = kind
    return .only (← newConnective kind flattened) (call.carried nested)

/-- `(and a (and b c))` becomes `(and a b c)`. -/
def flattenConjunction : PredicateRule :=
  flatten "FlattenConjunction" "conjunction of a conjunction" .and

/-- `(or a (or b c))` becomes `(or a b c)`. -/
def flattenDisjunction : PredicateRule :=
  flatten "FlattenDisjunction" "disjunction of a disjunction" .or

def isConnective : Predicate → Bool
  | and _ _ | or _ _ => true
  | _ => false

/-- The constant that a connective can drop among its operands, and the one that decides it. -/
def identityAndAbsorbing? : PredicateKind → Option (Truth × Truth)
  | .and => some (.holds, .fails)
  | .or => some (.fails, .holds)
  | _ => none

/-- Drops the identity constants of a connective, and replaces the connective by its absorbing
constant if that is an operand. A connective of one operand becomes that operand, and one of none
its identity. -/
def absorbConstants : PredicateRule where
  name := "AbsorbConstants"
  pattern := .filter "conjunction or disjunction" isConnective none
  action call := do
    let some (neutral, absorbing) := identityAndAbsorbing? call.current.kind | return .nothing
    let operands := call.current.children
    if let some absorber := operands.find? fun operand => operand.asConstant? = some absorbing then
      return .only absorber (call.carried [absorber])
    let (dropped, kept) := operands.partition fun operand => operand.asConstant? = some neutral
    if dropped.isEmpty && kept.length > 1 then return .nothing
    let simplified ← match kept with
      | [] => newConstant neutral
      | [operand] => pure operand
      | _ => newConnective call.current.kind kept
    return .only simplified (call.carried dropped)

/-- The connective that negation turns a connective into. -/
def dual? : PredicateKind → Option PredicateKind
  | .and => some .or
  | .or => some .and
  | _ => none

/-- `(not (and a b))` becomes `(or (not a) (not b))`, and likewise for disjunctions. The new negations
may simplify further, so the result is to be explored again. -/
def deMorgan : PredicateRule where
  name := "DeMorgan"
  pattern := .exactly .not none [.filter "conjunction or disjunction" isConnective (some "connective")]
  rootOperator? := some .not
  action call := do
    let inner ← call.get "connective"
    let some kind := dual? inner.kind | return .nothing
    let negated ← inner.children.mapM newNot
    return (Response.nothing.require (call.carried [inner])).yieldAndReExplore
      (← newConnective kind negated)

def allRules (scalarRules : RuleSet Scalar ScalarKind Scalar.Action) : List PredicateRule :=
  [constantParameterNullTest, simplifyOperands scalarRules, foldConstantComparison,
    foldConstantNullTest, notOverConstant, doubleNegation, notOverComparison, flattenConjunction,
    flattenDisjunction, absorbConstants, deMorgan]

/-- The default rules in the order they are added, each with the rules it has to come after. -/
def defaultRuleBuilder (scalarRules : RuleSet Scalar ScalarKind Scalar.Action) :
    RuleSetBuilder Predicate PredicateKind Action :=
  RuleSetBuilder.empty
    |>.add constantParameterNullTest
    |>.add (simplifyOperands scalarRules)
    |>.addAfter foldConstantComparison [(simplifyOperands scalarRules).name]
    |>.add foldConstantNullTest
    |>.add notOverConstant
    |>.add doubleNegation
    |>.add notOverComparison
    |>.add flattenConjunction
    |>.add flattenDisjunction
    |>.add absorbConstants

/-- The simplifications of predicates. Scalars are simplified by the default scalar rules. -/
def defaultRules : Except Error (RuleSet Predicate PredicateKind Action) := do
  (defaultRuleBuilder (← Scalar.defaultRules)).build

/-- The default rules, and the rule that pushes negations down. Since that one asks for
re-exploration, this set is for `optimize`. -/
def normalizationRules : Except Error (RuleSet Predicate PredicateKind Action) := do
  ((defaultRuleBuilder (← Scalar.defaultRules)).add deMorgan).build

mutual

/-- A weight that every replacement lowers, unless the replacement is to be explored again. -/
def weight : Predicate → Nat
  | constant _ _ => 1
  | and _ operands => 2 + weightEach operands
  | or _ operands => 2 + weightEach operands
  | not _ operand => 1 + weight operand
  | compare _ _ left right => 2 + left.weight + right.weight
  | isNull _ operand => 1 + operand.weight

def weightEach : List Predicate → Nat
  | [] => 0
  | predicate :: rest => weight predicate + weightEach rest

end

/-- The setting in which predicates are simplified and optimized: no chain of replacements is longer
than the weight of its first node. -/
def setting (environment : Environment) (rules : RuleSet Predicate PredicateKind Action) :
    Setting Predicate PredicateKind Action :=
  { environment, rules, patience := weight }

end QueryOptimizer.Predicate
