import QueryOptimizer.Proofs.Rule.Mapping
import QueryOptimizer.Proofs.Simplification.Results

/-!
Simplification rules can be made to compute without changing what they do to a tree.
-/
namespace QueryOptimizer

/-- Rules that are made to compute are collected, and fail to be collected, as they are without results. With
them a computation ends as simplification does: it stops short in the same cases and for the same reason, and
otherwise goes through the same nodes to the same tree under the same constraint. There is a result if and only
if some accepted call yielded the final root, and it is what the last of these calls computed from the argument,
that node and the results attached by then to the children of the node it replaced. -/
theorem compute_simplifies_with_results {ν ω σ A ρ : Type} [Tree ν ω] [DecidableEq ω]
    (builder : RuleSetBuilder ν ω (Call ν → RuleM σ (Response ν))) (environment : Environment) (patience : ν → Nat)
    (summary : A → ν → List (Option ρ) → ρ) (argument : A) (root : ν) (session : Session σ) :
    match builder.build,
      (builder.map (ComputationRule.ofSimplification summary) :
        RuleSetBuilder ν ω (ComputationCall ν A ρ → RuleM σ (Response (ν × ρ)))).build with
    | .error error, computing => computing = .error error
    | .ok _, .error _ => False
    | .ok rules, .ok computing =>
      Ends (simplify ⟨environment, rules, patience⟩ root) session
        (fun simplified after => ∃ history result?,
          simplify (Setting.lift logging ⟨environment, rules, patience⟩) root (session.withHistory []) =
              .ok simplified (after.withHistory history) ∧
            (∃ computed, simplify ⟨environment, computing.map (ComputationRule.recording argument), patience⟩ root
              (session.withResults .empty) = .ok simplified (after.withResults computed)) ∧
            compute ⟨environment, computing, patience⟩ argument root session =
              .ok (result?.map (simplified, ·)) after ∧
            (result?.isSome = true ↔ ∃ event ∈ history, sameNode event.target simplified.value = true) ∧
            Attached summary argument history simplified.value result?)
        (fun interruption after =>
          compute ⟨environment, computing, patience⟩ argument root session = .error interruption after) := by
  have named (rule : SimplificationRule ν ω σ) :
      (ComputationRule.ofSimplification summary rule :
        Rule ν ω (ComputationCall ν A ρ → RuleM σ (Response (ν × ρ)))).name = rule.name :=
    rfl
  rw [RuleSetBuilder.build_map named]
  cases builder.build with
  | error error => rfl
  | ok rules =>
    refine (compute_ends summary argument ⟨environment, rules, patience⟩ root session).imp ?_
    intro simplified after ended
    obtain ⟨history, logged, driven, returned⟩ := ended
    have attached := attached_resultsOf summary argument history simplified.value
    rw [← Setting.computing_recording] at driven
    exact ⟨history, _, logged, ⟨_, driven⟩, returned, attached.isSome_iff, attached⟩

end QueryOptimizer
