import QueryOptimizer.Simplification.BottomUp
import QueryOptimizer.Simplification.Exploration

/-!
What drivers take from their setting: nothing but the fixpoints that they drive nodes to.
-/
namespace QueryOptimizer
variable {ν ω σ : Type} [Tree ν ω] [DecidableEq ω]
variable {setting other : Setting ν ω (Call ν → RuleM σ (Response ν))}
variable (same : fixpoint setting = fixpoint other)
include same

theorem simplify_of_fixpoint : simplify setting = simplify other := by
  have visited : simplifyNode setting = simplifyNode other := by
    funext root node mapped
    simp only [simplifyNode, same]
  funext root
  simp only [simplify, visited]

theorem explore_of_fixpoint (limits : Limits) (depth : Nat) :
    explore setting limits depth = explore other limits depth := by
  have round : exploreRound setting = exploreRound other := by
    funext visit root outermost again current
    simp only [exploreRound, same]
  have rounds (visit : ν → ν → Run ν σ ν) (root : ν) (outermost : Bool) (remaining : Nat) :
      exploreRounds setting limits visit root outermost remaining =
        exploreRounds other limits visit root outermost remaining := by
    induction remaining with
    | zero => simp only [exploreRounds, round]
    | succ remaining ih => simp only [exploreRounds, round, ih]
  induction depth with
  | zero => rfl
  | succ depth ih =>
    funext root current
    simp only [explore, ih, rounds]

theorem optimize_of_fixpoint (limits : Limits) : optimize setting limits = optimize other limits := by
  funext root
  simp only [optimize, explore_of_fixpoint same]

end QueryOptimizer
