/-!
Errors of an optimization, and the other way in which one can stop short.
-/
namespace QueryOptimizer

/-- What went wrong while rules were collected or applied. -/
inductive Error where
  /-- A traversal did not produce a result for every node. -/
  | unmappedTree
  /-- One call of `rule` yielded `count` replacements, where at most one is allowed. -/
  | ambiguousYield (rule : String) (count : Nat)
  /-- A rule asked for its replacement to be explored again where that is not supported. -/
  | unexpectedReExploration (rule : String)
  /-- A node was to be explored again more than `limit` times. -/
  | reExplorationLimit (limit : Nat)
  /-- The rules of a set cannot be ordered by their dependencies. -/
  | cyclicRuleDependencies
  /-- A rule is to come after a rule that is not in the set. -/
  | unknownRuleDependency (rule dependency : String)
  /-- A rule asked for a key that its pattern does not bind. -/
  | missingBinding (rule key : String)
  /-- A rule failed of its own accord. -/
  | ruleFailed (rule message : String)
  /-- A traversal went deeper than `limit`. -/
  | recursionLimit (limit : Nat)
  | internal (message : String)
  deriving DecidableEq, Repr

namespace Error

def message : Error → String
  | unmappedTree => "expected a mapped tree"
  | ambiguousYield rule count =>
    "rule " ++ rule ++ " yielded " ++ toString count ++ " results where at most one is allowed"
  | unexpectedReExploration rule =>
    "rule " ++ rule ++ " requested re-exploration, which is only supported when optimizing"
  | reExplorationLimit limit => "exceeded re-exploration limit of " ++ toString limit
  | cyclicRuleDependencies => "rule dependencies have cycles"
  | unknownRuleDependency rule dependency => "rule " ++ rule ++ " depends on unknown rule " ++ dependency
  | missingBinding rule key => "rule " ++ rule ++ " has no binding for " ++ key
  | ruleFailed rule message => "rule " ++ rule ++ " failed: " ++ message
  | recursionLimit limit => "exceeded recursion limit of " ++ toString limit
  | internal message => "internal rewrite error: " ++ message

end Error

/-- Why a run stopped without a result. Running out of steps says nothing about the rules: with more
steps the same run may succeed, fail, or need still more. -/
inductive Interruption where
  | error (cause : Error)
  | outOfSteps
  deriving DecidableEq, Repr

def Interruption.message : Interruption → String
  | error cause => cause.message
  | outOfSteps => "out of steps"

/-- Computations that can fail with an `Error`. -/
class MonadRaise (m : Type → Type) where
  raise : {α : Type} → Error → m α

export MonadRaise (raise)

instance : MonadRaise (Except Error) := ⟨.error⟩

instance : MonadRaise (EStateM Error S) := ⟨fun error state => .error error state⟩

instance : MonadRaise (EStateM Interruption S) := ⟨fun error state => .error (.error error) state⟩

end QueryOptimizer
