import QueryOptimizer.Predicate.Truth
import QueryOptimizer.Scalar.Basic

/-!
Predicates over rows, under three-valued logic.
-/
namespace QueryOptimizer

inductive Predicate where
  | constant (id : NodeId) (truth : Truth)
  /-- Holds if every operand holds. -/
  | and (id : NodeId) (operands : List Predicate)
  /-- Holds if some operand holds. -/
  | or (id : NodeId) (operands : List Predicate)
  /-- Holds if the operand fails. -/
  | not (id : NodeId) (operand : Predicate)
  | compare (id : NodeId) (comparison : Comparison) (left right : Scalar)
  | isNull (id : NodeId) (operand : Scalar)

inductive PredicateKind where
  | constant
  | and
  | or
  | not
  | compare
  | isNull
  deriving DecidableEq, Repr

def PredicateKind.outline : PredicateKind → String
  | constant => "Constant"
  | and => "And"
  | or => "Or"
  | not => "Not"
  | compare => "Compare"
  | isNull => "IsNull"

namespace Predicate

def identity : Predicate → NodeId
  | constant id _ => id
  | and id _ => id
  | or id _ => id
  | not id _ => id
  | compare id _ _ _ => id
  | isNull id _ => id

def kind : Predicate → PredicateKind
  | constant _ _ => .constant
  | and _ _ => .and
  | or _ _ => .or
  | not _ _ => .not
  | compare _ _ _ _ => .compare
  | isNull _ _ => .isNull

/-- The predicates that a predicate is made of; scalars are not among them. -/
def children : Predicate → List Predicate
  | and _ operands => operands
  | or _ operands => operands
  | not _ operand => [operand]
  | _ => []

/-- The same kind of predicate over other operands. A negation takes the first of them, or else keeps
its own; a predicate without operands keeps its content. -/
def copyOver : Predicate → List Predicate → NodeId → Predicate
  | constant _ truth, _, id => constant id truth
  | and _ _, operands, id => and id operands
  | or _ _, operands, id => or id operands
  | not _ operand, operands, id => not id (operands.headD operand)
  | compare _ comparison left right, _, id => compare id comparison left right
  | isNull _ operand, _, id => isNull id operand

mutual

def nodeCount : Predicate → Nat
  | constant _ _ => 1
  | and _ operands => 1 + nodeCountEach operands
  | or _ operands => 1 + nodeCountEach operands
  | not _ operand => 1 + nodeCount operand
  | compare _ _ _ _ => 1
  | isNull _ _ => 1

def nodeCountEach : List Predicate → Nat
  | [] => 0
  | predicate :: rest => nodeCount predicate + nodeCountEach rest

end

theorem nodeCountEach_eq (predicates : List Predicate) :
    nodeCountEach predicates = totalOf nodeCount predicates := by
  induction predicates with
  | nil => rfl
  | cons predicate rest ih => simp only [nodeCountEach, totalOf, ih]

theorem nodeCount_eq (predicate : Predicate) :
    nodeCount predicate = 1 + totalOf nodeCount (children predicate) := by
  cases predicate <;> simp [nodeCount, children, totalOf, nodeCountEach_eq]

instance : Tree Predicate PredicateKind where
  identity := identity
  operator := kind
  children := children
  copyOver := copyOver
  nodeCount := nodeCount
  nodeCount_eq := nodeCount_eq

variable {m : Type → Type} [Monad m] [MonadFresh m]

def newConstant (truth : Truth) : m Predicate :=
  return constant (← fresh) truth

def newAnd (operands : List Predicate) : m Predicate :=
  return and (← fresh) operands

def newOr (operands : List Predicate) : m Predicate :=
  return or (← fresh) operands

def newNot (operand : Predicate) : m Predicate :=
  return not (← fresh) operand

def newCompare (comparison : Comparison) (left right : Scalar) : m Predicate :=
  return compare (← fresh) comparison left right

def newIsNull (operand : Scalar) : m Predicate :=
  return isNull (← fresh) operand

/-- The truth value, if the predicate is a constant. -/
def asConstant? : Predicate → Option Truth
  | constant _ truth => some truth
  | _ => none

/-- The scalars that a comparison or null test is about; other predicates have none. -/
def scalars : Predicate → List Scalar
  | compare _ _ left right => [left, right]
  | isNull _ operand => [operand]
  | _ => []

/-- A new predicate over other scalars, in the order of `scalars`. A comparison takes the first two
scalars and a null test a single one; in all other cases the content stays as it is. -/
def withScalars (predicate : Predicate) (scalars : List Scalar) : m Predicate :=
  match predicate, scalars with
  | compare _ comparison _ _, left :: right :: _ => newCompare comparison left right
  | isNull _ _, [operand] => newIsNull operand
  | _, _ => return copyOver predicate (children predicate) (← fresh)

mutual

/-- Whether two predicates are equal apart from the identities of their nodes. -/
def agrees : Predicate → Predicate → Bool
  | constant _ one, constant _ other => one = other
  | and _ operands, and _ others => agreesEach operands others
  | or _ operands, or _ others => agreesEach operands others
  | not _ operand, not _ other => agrees operand other
  | compare _ comparison left right, compare _ otherComparison otherLeft otherRight =>
    comparison = otherComparison && left.agrees otherLeft && right.agrees otherRight
  | isNull _ operand, isNull _ other => operand.agrees other
  | _, _ => false

def agreesEach : List Predicate → List Predicate → Bool
  | [], [] => true
  | one :: rest, other :: otherRest => agrees one other && agreesEach rest otherRest
  | _, _ => false

end

mutual

/-- The quantifiers and parameters that the scalars of the predicate refer to. -/
def correlatedTo : Predicate → AliasSet
  | constant _ _ => ∅
  | and _ operands => correlatedToEach operands
  | or _ operands => correlatedToEach operands
  | not _ operand => correlatedTo operand
  | compare _ _ left right => left.correlatedTo ∪ right.correlatedTo
  | isNull _ operand => operand.correlatedTo

def correlatedToEach : List Predicate → AliasSet
  | [] => ∅
  | predicate :: rest => correlatedTo predicate ∪ correlatedToEach rest

end

/-- Renames the scalars of a single node, or rebuilds the node over renamed operands. -/
def renameNode [MonadRaise m] (names : Renaming) (predicate : Predicate) (operands : List Predicate) :
    m Predicate :=
  if predicate.scalars.isEmpty then Tree.rebuild predicate operands
  else do
    let renamed ← predicate.scalars.mapM (Scalar.rename names)
    if (predicate.scalars.zip renamed).all fun pair => sameNode pair.1 pair.2 then return predicate
    else predicate.withScalars renamed

/-- Renames the quantifiers and parameters that the predicate refers to. Whatever refers to no source
stays the same node. -/
def rename [MonadRaise m] (names : Renaming) (predicate : Predicate) : m Predicate :=
  Tree.mapPostOrder (renameNode names) predicate

mutual

/-- The predicate in the textual syntax. -/
def text : Predicate → String
  | constant _ truth => truth.text
  | and _ operands => "(and" ++ textEach operands ++ ")"
  | or _ operands => "(or" ++ textEach operands ++ ")"
  | not _ operand => "(not " ++ text operand ++ ")"
  | compare _ comparison left right =>
    "(" ++ comparison.symbol ++ " " ++ left.text ++ " " ++ right.text ++ ")"
  | isNull _ operand => "(is-null " ++ operand.text ++ ")"

/-- The texts of predicates, each after a blank. -/
def textEach : List Predicate → String
  | [] => ""
  | predicate :: rest => " " ++ text predicate ++ textEach rest

end

mutual

def outline : Predicate → String
  | constant _ truth => Text.applicationOutline "Constant" [truth.outline]
  | and _ operands => Text.applicationOutline "And" [Text.listOutline (outlineEach operands)]
  | or _ operands => Text.applicationOutline "Or" [Text.listOutline (outlineEach operands)]
  | not _ operand => Text.applicationOutline "Not" [outline operand]
  | compare _ comparison left right =>
    Text.recordOutline "Compare"
      [("op", comparison.outline), ("left", left.outline), ("right", right.outline)]
  | isNull _ operand => Text.applicationOutline "IsNull" [operand.outline]

def outlineEach : List Predicate → List String
  | [] => []
  | predicate :: rest => outline predicate :: outlineEach rest

end

end Predicate
end QueryOptimizer
