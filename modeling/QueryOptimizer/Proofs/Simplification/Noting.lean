import QueryOptimizer.Simplification.Exploration

/-!
Exploration that takes a note of every node that it rebuilds over changed children. Without anything to
do for a note it is exploration itself.
-/
namespace QueryOptimizer
variable {ν ω σ : Type} [Tree ν ω] [DecidableEq ω]

/-- Rebuilds `current` over its visited children and carries its constraint over to the new node, if there
is a new one, of which `note` is taken. -/
def renew (note : ν → ν → Run ν σ Unit) (current : ν) (children : List ν) : Run ν σ ν := do
  let rebuilt ← Tree.rebuild current children
  if sameNode rebuilt current then return rebuilt
  modify fun ledger => { ledger with
    constraints := carryConstraint ledger.constraints current rebuilt }
  note current rebuilt
  return rebuilt

/-- One round of exploration that takes notes. -/
def exploreRoundNoting (setting : Setting ν ω (Call ν → RuleM σ (Response ν))) (note : ν → ν → Run ν σ Unit)
    (visit : ν → ν → Run ν σ ν) (root : ν) (outermost : Bool) (again : ν → Run ν σ ν) (current : ν) :
    Run ν σ ν := do
  let childRoot := if outermost then current else root
  let children ← (Tree.children current).mapM (visit childRoot)
  let rebuilt ← renew note current children
  let callRoot := if outermost then rebuilt else root
  let outcome ← fixpoint setting callRoot rebuilt
  match outcome.reExploredBy with
  | none => return outcome.node
  | some _ => again outcome.node

/-- Explores a node in rounds that take notes. -/
def exploreRoundsNoting (setting : Setting ν ω (Call ν → RuleM σ (Response ν))) (note : ν → ν → Run ν σ Unit)
    (limits : Limits) (visit : ν → ν → Run ν σ ν) (root : ν) (outermost : Bool) :
    (remaining : Nat) → ν → Run ν σ ν
  | 0 => exploreRoundNoting setting note visit root outermost fun _ =>
      raise (.reExplorationLimit limits.reExplorations)
  | remaining + 1 => exploreRoundNoting setting note visit root outermost
      (exploreRoundsNoting setting note limits visit root outermost remaining)

/-- Explores a node and takes notes. -/
def exploreNoting (setting : Setting ν ω (Call ν → RuleM σ (Response ν))) (note : ν → ν → Run ν σ Unit)
    (limits : Limits) : Nat → ν → ν → Run ν σ ν
  | 0, _, _ => raise (.recursionLimit limits.recursion)
  | depth + 1, root, current =>
    exploreRoundsNoting setting note limits (exploreNoting setting note limits depth) root
      (sameNode root current) limits.reExplorations current

/-- Optimizes a tree and takes notes. -/
def optimizeNoting (setting : Setting ν ω (Call ν → RuleM σ (Response ν))) (note : ν → ν → Run ν σ Unit)
    (limits : Limits) (root : ν) : RuleM σ (Constrained ν) := do
  let (optimized, constraints) ←
    (exploreNoting setting note limits limits.recursion root root).onFreshLedger
  if sameNode optimized root then return ⟨optimized, .none⟩
  else return ⟨optimized, collectConstraints constraints optimized⟩

section Silent
variable (setting : Setting ν ω (Call ν → RuleM σ (Response ν))) (limits : Limits)

theorem exploreRoundNoting_silent (visit : ν → ν → Run ν σ ν) (root : ν) (outermost : Bool)
    (again : ν → Run ν σ ν) :
    exploreRoundNoting setting (fun _ _ => pure ()) visit root outermost again =
      exploreRound setting visit root outermost again := by
  funext current
  simp only [exploreRoundNoting, exploreRound, renew, bind_assoc]
  congr 1
  funext children
  congr 1
  funext rebuilt
  cases sameNode rebuilt current with
  | true => rfl
  | false => rfl

theorem exploreRoundsNoting_silent (visit : ν → ν → Run ν σ ν) (root : ν) (outermost : Bool) (remaining : Nat) :
    exploreRoundsNoting setting (fun _ _ => pure ()) limits visit root outermost remaining =
      exploreRounds setting limits visit root outermost remaining := by
  induction remaining with
  | zero => exact exploreRoundNoting_silent setting visit root outermost _
  | succ remaining ih =>
    unfold exploreRoundsNoting exploreRounds
    rw [ih, exploreRoundNoting_silent]

theorem exploreNoting_silent (depth : Nat) :
    exploreNoting setting (fun _ _ => pure ()) limits depth = explore setting limits depth := by
  induction depth with
  | zero => rfl
  | succ depth ih =>
    funext root current
    unfold exploreNoting explore
    rw [ih, exploreRoundsNoting_silent]

/-- Taking notes of nothing is no more than optimizing. -/
theorem optimizeNoting_silent (root : ν) :
    optimizeNoting setting (fun _ _ => pure ()) limits root = optimize setting limits root := by
  unfold optimizeNoting optimize
  rw [exploreNoting_silent]

end Silent
end QueryOptimizer
