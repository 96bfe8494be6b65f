import QueryOptimizer.Integer64
import QueryOptimizer.Tree.Traversal

/-!
Terms: a plain kind of tree, with integer leaves and named operators over any number of terms.
-/
namespace QueryOptimizer

inductive Term where
  | leaf (id : NodeId) (value : Int64)
  | apply (id : NodeId) (name : String) (arguments : List Term)

namespace Term

def identity : Term → NodeId
  | leaf id _ => id
  | apply id _ _ => id

/-- The name of the operator; all leaves have the same one. -/
def operator : Term → String
  | leaf _ _ => "leaf"
  | apply _ name _ => name

def arguments : Term → List Term
  | leaf _ _ => []
  | apply _ _ arguments => arguments

def copyOver : Term → List Term → NodeId → Term
  | leaf _ value, _, id => leaf id value
  | apply _ name _, arguments, id => apply id name arguments

mutual

def nodeCount : Term → Nat
  | leaf _ _ => 1
  | apply _ _ arguments => 1 + nodeCountEach arguments

def nodeCountEach : List Term → Nat
  | [] => 0
  | term :: rest => nodeCount term + nodeCountEach rest

end

theorem nodeCountEach_eq (terms : List Term) :
    nodeCountEach terms = totalOf nodeCount terms := by
  induction terms with
  | nil => rfl
  | cons term rest ih => simp only [nodeCountEach, totalOf, ih]

theorem nodeCount_eq (term : Term) : nodeCount term = 1 + totalOf nodeCount (arguments term) := by
  cases term <;> simp [nodeCount, arguments, totalOf, nodeCountEach_eq]

instance : Tree Term String where
  identity := identity
  operator := operator
  children := arguments
  copyOver := copyOver
  nodeCount := nodeCount
  nodeCount_eq := nodeCount_eq

def leafValue? : Term → Option Int64
  | leaf _ value => some value
  | apply _ _ _ => none

/-- The term without its arguments: the number of a leaf, or the name of an operator. -/
def label : Term → String
  | leaf _ value => toString value
  | apply _ name _ => name

mutual

def text : Term → String
  | leaf _ value => toString value
  | apply _ name arguments => name ++ "(" ++ ",".intercalate (textEach arguments) ++ ")"

def textEach : List Term → List String
  | [] => []
  | term :: rest => text term :: textEach rest

end

/-- Tests of terms by name, for patterns. -/
def test? : String → Option (Term → Bool)
  | "leaf" => some fun term => term.leafValue?.isSome
  | "odd" => some fun term => term.leafValue?.any fun value => value.toInt % 2 ≠ 0
  | "positive" => some fun term => term.leafValue?.any fun value => value > 0
  | "inner" => some fun term => !term.arguments.isEmpty
  | "wide" => some fun term => term.arguments.length ≥ 2
  | _ => none

end Term
end QueryOptimizer
