import QueryOptimizer.Alias.Renaming
import QueryOptimizer.Scalar.Function
import QueryOptimizer.Tree.Traversal

/-!
Scalar expressions, each of which computes one value per row.
-/
namespace QueryOptimizer

inductive Scalar where
  | literal (id : NodeId) (value : Literal)
  /-- A column of the current row of a quantifier. -/
  | column (id : NodeId) (quantifier : Alias) (column : String)
  /-- A parameter, whose value is bound when the query is executed. -/
  | parameter (id : NodeId) (parameter : Alias)
  | call (id : NodeId) (function : ScalarFunction) (arguments : List Scalar)

/-- The kinds of scalar expressions; a call is of the kind of its function. -/
inductive ScalarKind where
  | literal
  | column
  | parameter
  | neg
  | abs
  | add
  | sub
  | mul
  | record
  | field
  deriving DecidableEq, Repr

def ScalarKind.ofFunction : ScalarFunction → ScalarKind
  | .neg => neg
  | .abs => abs
  | .add => add
  | .sub => sub
  | .mul => mul
  | .record => record
  | .field _ => field

def ScalarKind.outline : ScalarKind → String
  | literal => "Literal"
  | column => "Column"
  | parameter => "Parameter"
  | neg => "Neg"
  | abs => "Abs"
  | add => "Add"
  | sub => "Sub"
  | mul => "Mul"
  | record => "Record"
  | field => "Field"

namespace Scalar

def identity : Scalar → NodeId
  | literal id _ => id
  | column id _ _ => id
  | parameter id _ => id
  | call id _ _ => id

def kind : Scalar → ScalarKind
  | literal _ _ => .literal
  | column _ _ _ => .column
  | parameter _ _ => .parameter
  | call _ function _ => .ofFunction function

def children : Scalar → List Scalar
  | call _ _ arguments => arguments
  | _ => []

/-- The same kind of expression over other arguments; one without arguments keeps its content. -/
def copyOver : Scalar → List Scalar → NodeId → Scalar
  | literal _ value, _, id => literal id value
  | column _ quantifier name, _, id => column id quantifier name
  | parameter _ symbol, _, id => parameter id symbol
  | call _ function _, arguments, id => call id function arguments

mutual

def nodeCount : Scalar → Nat
  | literal _ _ => 1
  | column _ _ _ => 1
  | parameter _ _ => 1
  | call _ _ arguments => 1 + nodeCountEach arguments

def nodeCountEach : List Scalar → Nat
  | [] => 0
  | scalar :: rest => nodeCount scalar + nodeCountEach rest

end

theorem nodeCountEach_eq (scalars : List Scalar) :
    nodeCountEach scalars = totalOf nodeCount scalars := by
  induction scalars with
  | nil => rfl
  | cons scalar rest ih => simp only [nodeCountEach, totalOf, ih]

theorem nodeCount_eq (scalar : Scalar) : nodeCount scalar = 1 + totalOf nodeCount (children scalar) := by
  cases scalar <;> simp [nodeCount, children, totalOf, nodeCountEach_eq]

instance : Tree Scalar ScalarKind where
  identity := identity
  operator := kind
  children := children
  copyOver := copyOver
  nodeCount := nodeCount
  nodeCount_eq := nodeCount_eq

variable {m : Type → Type} [Monad m] [MonadFresh m]

def newLiteral (value : Literal) : m Scalar :=
  return literal (← fresh) value

def newColumn (quantifier : Alias) (name : String) : m Scalar :=
  return column (← fresh) quantifier name

def newParameter (symbol : Alias) : m Scalar :=
  return parameter (← fresh) symbol

def newCall (function : ScalarFunction) (arguments : List Scalar) : m Scalar :=
  return call (← fresh) function arguments

/-- The constant, if the expression is one. -/
def asLiteral? : Scalar → Option Literal
  | literal _ value => some value
  | _ => none

def isLiteral (scalar : Scalar) : Bool :=
  scalar.asLiteral?.isSome

/-- Whether the expression is the given integer constant. -/
def isInt (scalar : Scalar) (value : Int64) : Bool :=
  scalar.asLiteral? = some (.int value)

mutual

/-- Whether two expressions are equal apart from the identities of their nodes. -/
def agrees : Scalar → Scalar → Bool
  | literal _ one, literal _ other => one = other
  | column _ quantifier name, column _ otherQuantifier otherName =>
    quantifier = otherQuantifier && name = otherName
  | parameter _ symbol, parameter _ otherSymbol => symbol = otherSymbol
  | call _ function arguments, call _ otherFunction otherArguments =>
    function = otherFunction && agreesEach arguments otherArguments
  | _, _ => false

def agreesEach : List Scalar → List Scalar → Bool
  | [], [] => true
  | one :: rest, other :: otherRest => agrees one other && agreesEach rest otherRest
  | _, _ => false

end

mutual

/-- The quantifiers and parameters that the expression refers to. -/
def correlatedTo : Scalar → AliasSet
  | literal _ _ => ∅
  | column _ quantifier _ => AliasSet.of quantifier
  | parameter _ symbol => AliasSet.of symbol
  | call _ _ arguments => correlatedToEach arguments

def correlatedToEach : List Scalar → AliasSet
  | [] => ∅
  | scalar :: rest => correlatedTo scalar ∪ correlatedToEach rest

end

/-- Renames the alias that a single node refers to, or rebuilds the node over renamed arguments. -/
def renameNode [MonadRaise m] (names : Renaming) (scalar : Scalar) (arguments : List Scalar) :
    m Scalar :=
  match scalar with
  | column _ quantifier name =>
    if names.renames quantifier then newColumn (names.apply quantifier) name
    else Tree.rebuild scalar arguments
  | parameter _ symbol =>
    if names.renames symbol then newParameter (names.apply symbol) else Tree.rebuild scalar arguments
  | _ => Tree.rebuild scalar arguments

/-- Renames the quantifiers and parameters that the expression refers to. Whatever refers to no source
stays the same node. -/
def rename [MonadRaise m] (names : Renaming) (scalar : Scalar) : m Scalar :=
  Tree.mapPostOrder (renameNode names) scalar

mutual

/-- The expression in the textual syntax. -/
def text : Scalar → String
  | literal _ value => value.text
  | column _ quantifier name => "(col " ++ quantifier.name ++ " " ++ name ++ ")"
  | parameter _ symbol => "(param " ++ symbol.name ++ ")"
  | call _ function arguments =>
    let position := match function with
      | .field position => " " ++ toString position
      | _ => ""
    "(" ++ function.name ++ position ++ textEach arguments ++ ")"

/-- The texts of expressions, each after a blank. -/
def textEach : List Scalar → String
  | [] => ""
  | scalar :: rest => " " ++ text scalar ++ textEach rest

end

mutual

def outline : Scalar → String
  | literal _ value => Text.applicationOutline "Literal" [value.outline]
  | column _ quantifier name =>
    Text.recordOutline "Column" [("quantifier", quantifier.outline), ("column", Text.quote name)]
  | parameter _ symbol => Text.applicationOutline "Parameter" [symbol.outline]
  | call _ function arguments =>
    Text.recordOutline "Call"
      [("func", function.outline), ("args", Text.listOutline (outlineEach arguments))]

def outlineEach : List Scalar → List String
  | [] => []
  | scalar :: rest => outline scalar :: outlineEach rest

end

end Scalar
end QueryOptimizer
