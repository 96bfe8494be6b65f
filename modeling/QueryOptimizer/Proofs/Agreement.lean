import QueryOptimizer.Proofs.Scalar.Contract
import QueryOptimizer.Proofs.Simplification.Agreement

/-!
Without re-exploration, it does not matter by which driver a tree is rewritten.
-/
namespace QueryOptimizer

/-- Whenever simplification returns, so does optimization, started in the same session: with the very same
tree, hence with the root that was given in the same cases, and under the same constraint. Given are any rules
that never fail and never ask for re-exploration, and that yield proper descendants of the current node or new
nodes over such descendants; which ones they yield depends on nothing but the node, its bindings and the
environment, while constraints may depend on anything. -/
theorem optimize_agrees_with_simplify {ν ω σ : Type} [Tree ν ω] [DecidableEq ω] [LawfulTree ν]
    (setting : Setting ν ω (Call ν → RuleM σ (Response ν))) (limits : Limits)
    {settled : Set ν → Session σ → Prop} (habitat : SessionHabitat settled)
    (existing : ∀ rule ∈ setting.rules.rules, YieldsExisting settled setting.environment rule)
    (contextFree : ∀ rule ∈ setting.rules.rules, ContextFree settled setting.environment rule)
    (descending : ∀ rule ∈ setting.rules.rules, Descending settled setting.environment rule)
    {root : ν} {nodes : Set ν} {session after : Session σ} {simplified : Constrained ν}
    (settles : settled nodes session) (present : root ∈ nodes)
    (enough : Tree.height root ≤ limits.recursion)
    (returned : simplify setting root session = .ok simplified after) :
    optimize setting limits root session = .ok simplified after := by
  have arena := habitat.arena nodes session settles
  have fit : Untangled setting settled nodes nodes ({ toSession := session } : Ledger ν σ) :=
    ⟨settles, subset_rfl, fun node _ found => absurd (Table.get?_empty node) found⟩
  have driven := (fold_simplifyNode_mirrors_explore descending habitat arena existing contextFree limits present
    present enough fit).and (fold_simplifyNode_unchanged descending habitat fit present present)
  have mirrored : Mirrors (simplify setting root) (optimize setting limits root) session fun _ _ => True := by
    rw [← optimizeNoting_silent]
    unfold simplify optimizeNoting
    rw [Tree.mapPostOrder_eq_fold]
    refine .bind (onFreshLedger_mirrors (driven.imp ?_))
    rintro result final ⟨⟨wider, extended, fitted, agreed⟩, unchanged⟩
    by_cases same : sameNode result root = true
    · -- The root was returned, and so nothing was recorded.
      obtain rfl := (habitat.arena wider _ fitted.settles).distinct _ agreed.known _ (extended present)
        (sameNode_iff.mp same)
      obtain ⟨-, nothing⟩ := unchanged fun inner within => agreed.rests inner (arena.subtree present within) within
      simp only [same, if_true, nothing, collectConstraints_empty]
      exact .pure trivial
    · simp only [same]
      exact .pure trivial
  exact (mirrored.at_ok returned).1

/-- The sum of a parameter and itself, with one node for both, where the parameter is constant for the
execution. -/
theorem optimize_agrees_with_simplify_doubled_parameter :
    let root : Scalar := .call ⟨1⟩ .add [.parameter ⟨0⟩ ⟨"p"⟩, .parameter ⟨0⟩ ⟨"p"⟩]
    let setting := Scalar.setting { parameters := .bind .empty ⟨"p"⟩ (.int 5), constants := .of ⟨"p"⟩ }
      ⟨Scalar.allRules⟩
    WellFormed root ⟨2⟩ ∧ Tree.height root ≤ 2048 ∧
      (∀ rule ∈ setting.rules.rules, YieldsExisting Scalar.Settled setting.environment rule) ∧
      (∀ rule ∈ setting.rules.rules, ContextFree Scalar.Settled setting.environment rule) ∧
      (∀ rule ∈ setting.rules.rules, Descending Scalar.Settled setting.environment rule) ∧
      ∃ simplified after, simplify setting root ⟨⟨2⟩, ()⟩ = .ok simplified after ∧
        optimize setting {} root ⟨⟨2⟩, ()⟩ = .ok simplified after := by
  intro root setting
  have parameterFormed : WellFormed (Scalar.parameter ⟨0⟩ ⟨"p"⟩) ⟨1⟩ := .leaf rfl Nat.zero_lt_one
  have only (other : Scalar) : other ∈ Tree.children root ↔ other = .parameter ⟨0⟩ ⟨"p"⟩ := by
    simp [root, Tree.children, Scalar.children]
  have formed : WellFormed root ⟨2⟩ := parameterFormed.parent only rfl
  have enough : Tree.height root ≤ 2048 := by
    refine Tree.height_le_succ_iff.mpr fun child member => ?_
    obtain rfl := (only child).mp member
    exact Tree.height_le_succ_iff.mpr (List.forall_mem_nil _)
  have existing := Scalar.allRules_yieldExisting setting.environment
  have contextFree := Scalar.allRules_contextFree setting.environment
  have descending := Scalar.allRules_descend setting.environment
  obtain ⟨simplified, after, returned, -⟩ := (Scalar.simplify_lightened setting.environment root ⟨⟨2⟩, ()⟩).returned
  exact ⟨formed, enough, existing, contextFree, descending, simplified, after, returned,
    optimize_agrees_with_simplify setting {} arena_habitat existing contextFree descending formed
      (Tree.root_mem_postOrder root) enough returned⟩

end QueryOptimizer
