import QueryOptimizer.Proofs.Simplification.Settling

/-!
Simplifying what was simplified before. A tree is simplified to itself exactly when all of its nodes rest,
and the nodes of a simplified tree do.
-/
namespace QueryOptimizer
variable {ν ω σ : Type} [Tree ν ω] [DecidableEq ω] [LawfulTree ν]
variable {setting : Setting ν ω (Call ν → RuleM σ (Response ν))} {settled : Set ν → Session σ → Prop}
variable (habitat : SessionHabitat settled)
  (existing : ∀ rule ∈ setting.rules.rules, YieldsExisting settled setting.environment rule)
  (contextFree : ∀ rule ∈ setting.rules.rules, ContextFree settled setting.environment rule)
  (leadsDown : ∀ rule ∈ setting.rules.rules, LeadsDown settled setting.environment rule ∅ Set.univ)
  (replacing : ∀ rule ∈ setting.rules.rules, Replacing settled setting.environment rule)
  {root : ν} {nodes : Set ν} {session after : Session σ} {simplified : Constrained ν}
include habitat existing contextFree leadsDown replacing

theorem simplify_unchanged_iff (settles : settled nodes session) (present : root ∈ nodes)
    (found : simplify setting root session = .ok simplified after) :
    sameNode root simplified.value = true ↔
      ∀ inner ∈ Tree.postOrder root, Rests setting (InSession settled) inner := by
  constructor
  · intro same
    obtain ⟨wider, included, settles, known, rests⟩ :=
      (simplify_settles habitat existing contextFree leadsDown settles present).at_ok found
    have unchanged := (habitat.arena wider after settles).distinct root (included present) _ known
      (sameNode_iff.mp same)
    rwa [unchanged]
  · intro rests
    obtain ⟨rfl, -⟩ := (simplify_of_rests habitat replacing rests settles present).at_ok found
    exact sameNode_iff.mpr rfl

/-- Whenever a simplified tree is simplified again, it is returned as it is, without any constraint. -/
theorem simplify_idempotent (settles : settled nodes session) (present : root ∈ nodes)
    (found : simplify setting root session = .ok simplified after) {others : Set ν} {later : Session σ}
    (settlesLater : settled others later) (presentLater : simplified.value ∈ others) :
    ∃ final, simplify setting simplified.value later = .ok ⟨simplified.value, .none⟩ final := by
  obtain ⟨_, _, _, _, rests⟩ :=
    (simplify_settles habitat existing contextFree leadsDown settles present).at_ok found
  obtain ⟨_, final, again, rfl, -⟩ :=
    (simplify_of_rests habitat replacing rests settlesLater presentLater).returned
  exact ⟨final, again⟩

end QueryOptimizer
