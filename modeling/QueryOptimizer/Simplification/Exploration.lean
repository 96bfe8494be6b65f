import QueryOptimizer.Simplification.Fixpoint

/-!
Optimization with re-exploration: a rule may ask for its replacement to be explored again, children
included, within bounds on the depth of the traversal and on the number of rounds at one node.
-/
namespace QueryOptimizer
variable {ν ω σ : Type} [Tree ν ω] [DecidableEq ω]

/-- Bounds on the work of an optimization. -/
structure Limits where
  /-- How deep the traversal may go. -/
  recursion : Nat := 2048
  /-- How many times one node may be explored again. -/
  reExplorations : Nat := 64
  deriving DecidableEq, Repr

/-- One round at `current`: visits the children, rebuilds the node over the results and drives it to a
fixpoint. Goes on with `again` if a rule asks for re-exploration. Nothing checks that the node to explore
again is another one than the rebuilt one: replacements may come back to that, and a request to explore it
again counts as a round like any other. -/
def exploreRound (setting : Setting ν ω (Call ν → RuleM σ (Response ν))) (visit : ν → ν → Run ν σ ν)
    (root : ν) (outermost : Bool) (again : ν → Run ν σ ν) (current : ν) : Run ν σ ν := do
  let childRoot := if outermost then current else root
  let children ← (Tree.children current).mapM (visit childRoot)
  let rebuilt ← Tree.rebuild current children
  if !sameNode rebuilt current then
    modify fun ledger => { ledger with
      constraints := carryConstraint ledger.constraints current rebuilt }
  let callRoot := if outermost then rebuilt else root
  let outcome ← fixpoint setting callRoot rebuilt
  match outcome.reExploredBy with
  | none => return outcome.node
  | some _ => again outcome.node

/-- Explores a node in rounds, of which `remaining` more may follow the first. -/
def exploreRounds (setting : Setting ν ω (Call ν → RuleM σ (Response ν))) (limits : Limits)
    (visit : ν → ν → Run ν σ ν) (root : ν) (outermost : Bool) : (remaining : Nat) → ν → Run ν σ ν
  | 0 => exploreRound setting visit root outermost fun _ =>
      raise (.reExplorationLimit limits.reExplorations)
  | remaining + 1 => exploreRound setting visit root outermost
      (exploreRounds setting limits visit root outermost remaining)

/-- Explores `current`, which may have `depth` levels of nodes, itself included. -/
def explore (setting : Setting ν ω (Call ν → RuleM σ (Response ν))) (limits : Limits) :
    Nat → ν → ν → Run ν σ ν
  | 0, _, _ => raise (.recursionLimit limits.recursion)
  | depth + 1, root, current =>
    exploreRounds setting limits (explore setting limits depth) root (sameNode root current)
      limits.reExplorations current

/-- Optimizes the tree, and returns with it the constraints recorded for its nodes; a tree that is
returned as it is has none. -/
def optimize (setting : Setting ν ω (Call ν → RuleM σ (Response ν))) (limits : Limits) (root : ν) :
    RuleM σ (Constrained ν) := do
  let (optimized, constraints) ← (explore setting limits limits.recursion root root).onFreshLedger
  if sameNode optimized root then return ⟨optimized, .none⟩
  else return ⟨optimized, collectConstraints constraints optimized⟩

end QueryOptimizer
