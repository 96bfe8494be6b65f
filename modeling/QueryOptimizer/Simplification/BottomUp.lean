import QueryOptimizer.Simplification.Fixpoint

/-!
Bottom-up simplification: every node, once its children are done, is driven to a fixpoint. A tree
that no rule applies to is returned as it is.
-/
namespace QueryOptimizer
variable {ν ω σ : Type} [Tree ν ω] [DecidableEq ω]

/-- What simplification does at `node`, whose children have become `mapped`. -/
def simplifyNode (setting : Setting ν ω (Call ν → RuleM σ (Response ν))) (root node : ν)
    (mapped : List ν) : Run ν σ ν := do
  let current ← Tree.rebuild node mapped
  let callRoot := if sameNode node root then current else root
  let outcome ← fixpoint setting callRoot current
  match outcome.reExploredBy with
  | some rule => raise (.unexpectedReExploration rule)
  | none => return outcome.node

/-- Simplifies the tree bottom-up, and returns with it the constraints recorded for its nodes. Fails
if a rule asks for re-exploration. -/
def simplify (setting : Setting ν ω (Call ν → RuleM σ (Response ν))) (root : ν) :
    RuleM σ (Constrained ν) := do
  let (simplified, constraints) ←
    (Tree.mapPostOrder (simplifyNode setting root) root).onFreshLedger
  return ⟨simplified, collectConstraints constraints simplified⟩

/-- The replacement that one application of a rule yields for `current`, if it is another node, with
the constraint of that application alone. -/
def alternative? (environment : Environment) (current : ν)
    (application : SimplificationRule ν ω σ × Bindings ν) : RuleM σ (Option (Constrained ν)) := do
  let (yielded?, constraints) ←
    (callRule environment application.1 current current application.2).onFreshLedger
  return (yielded?.filter fun yielded => !sameNode yielded.node current).map fun yielded =>
    ⟨yielded.node, collectConstraints constraints yielded.node⟩

/-- Applies every rule once to every match of `current`, whose children are taken to be simplified,
and returns each replacement instead of picking one. -/
def simplifyCurrent (environment : Environment)
    (rules : RuleSet ν ω (Call ν → RuleM σ (Response ν))) (current : ν) :
    RuleM σ (List (Constrained ν)) := do
  let alternatives ← (applications rules current).mapM (alternative? environment current)
  return alternatives.filterMap id

end QueryOptimizer
