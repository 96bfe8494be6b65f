import QueryOptimizer.Proofs.Simplification.Patience
import QueryOptimizer.Proofs.Simplification.Watching
import QueryOptimizer.Term.Basic

/-!
Termination of the drivers. A measure on nodes is needed for the fixpoints only: what is to be explored again may
be of any size, since depth and rounds are limited.
-/
namespace QueryOptimizer

/-- Let all calls of the rules come to an end, and let what they yield in place of a node, and not for another
exploration, have a smaller measure than the node. Then simplification, optimization and computation come to a
result or an error on every tree, and the same one for all patience that reaches the measure: no run is cut short.
Optimization does so within any limits, also as a pair of loops that ask a guard before they go deeper and count the
rounds they repeat; those loops need no more time than the limits tell, go no deeper than the recursion limit and
start at most one round more at each visit of a node than it may be explored again. -/
theorem drivers_terminate_under_decreasing_measure {ν ω σ A ρ : Type} [Tree ν ω] [DecidableEq ω]
    (environment : Environment) (measure patience : ν → Nat) (patient : ∀ node, measure node ≤ patience node) :
    (∀ rules : RuleSet ν ω (Call ν → RuleM σ (Response ν)),
      (∀ rule ∈ rules.rules, Lowers id id measure environment rule) → ∀ root : ν,
        Concludes (simplify ⟨environment, rules, patience⟩ root) ∧
        simplify ⟨environment, rules, patience⟩ root = simplify ⟨environment, rules, measure⟩ root ∧
        ∀ limits : Limits,
          Concludes (optimize ⟨environment, rules, patience⟩ limits root) ∧
          optimize ⟨environment, rules, patience⟩ limits root = optimize ⟨environment, rules, measure⟩ limits root ∧
          ∀ clock, limits.recursion + limits.reExplorations < clock → ∀ session : Session σ,
            let guard := RecursionGuard.withLimit limits.recursion
            ∃ starts, (∀ start ∈ starts, limits.Admit start) ∧
              optimizeWatched ⟨environment, rules, patience⟩ limits clock root (session.watched ⟨guard, []⟩) =
                endSeen (fun after => after.watched ⟨guard, starts⟩)
                  (optimize ⟨environment, rules, patience⟩ limits root session)) ∧
    (∀ rules : RuleSet ν ω (ComputationCall ν A ρ → RuleM σ (Response (ν × ρ))),
      (∀ rule ∈ rules.rules, Lowers ComputationCall.toCall Prod.fst measure environment rule) →
        ∀ (argument : A) (root : ν),
          Concludes (compute ⟨environment, rules, patience⟩ argument root) ∧
          compute ⟨environment, rules, patience⟩ argument root =
            compute ⟨environment, rules, measure⟩ argument root) := by
  constructor
  · intro rules lowers root
    have driven := fixpoint_patient lowers patient
    have simplified := congrFun (simplify_of_fixpoint driven) root
    refine ⟨simplified ▸ simplify_concludes lowers root, simplified, fun limits => ?_⟩
    have optimized := congrFun (optimize_of_fixpoint driven limits) root
    refine ⟨optimized ▸ optimize_concludes lowers limits root, optimized, fun clock enough session => ?_⟩
    exact optimize_watches ⟨environment, rules, patience⟩ limits enough root session
  · intro rules lowers argument root
    have computed := congrFun (compute_patient lowers patient argument) root
    exact ⟨computed ▸ compute_concludes lowers argument root, computed⟩

/-- A rule that puts two leaves in place of each, to be explored in turn, without end. Optimization goes as deep as
it may and fails, having started four rounds. The other drivers fail when the rule asks for another exploration. -/
theorem drivers_terminate_under_decreasing_measure_growing_tree :
    let grow : SimplificationRule Term String Unit :=
      { name := "grow", pattern := .operator "leaf" none
        action := fun call => do
          let id ← fresh
          return Response.nothing.yieldAndReExplore (.apply id "pair" [call.current, call.current]) }
    let growing : ComputationRule Term String Unit Unit Nat := .ofSimplification (fun _ _ _ => 0) grow
    let root : Term := .leaf ⟨0⟩ 1
    let session : Session Unit := ⟨⟨1⟩, ()⟩
    let limits : Limits := { recursion := 2, reExplorations := 1 }
    let guard := RecursionGuard.withLimit 2
    let starts : List Start := [⟨1, 1⟩, ⟨1, 2⟩, ⟨2, 1⟩, ⟨2, 2⟩]
    Lowers id id (fun _ => 0) {} grow ∧ Lowers ComputationCall.toCall Prod.fst (fun _ => 0) {} growing ∧
      Concludes (simplify ⟨{}, ⟨[grow]⟩, fun _ => 0⟩ root) ∧ Concludes (compute ⟨{}, ⟨[growing]⟩, fun _ => 0⟩ () root) ∧
      (∀ start ∈ starts, limits.Admit start) ∧
      ∃ after, optimize ⟨{}, ⟨[grow]⟩, fun _ => 0⟩ limits root session = .error (.error (.recursionLimit 2)) after ∧
        optimizeWatched ⟨{}, ⟨[grow]⟩, fun _ => 0⟩ limits 4 root (session.watched ⟨guard, []⟩) =
          .error (.error (.recursionLimit 2)) (after.watched ⟨guard, starts⟩) := by
  intro grow growing root session limits guard starts
  have lowers : Lowers id id (fun _ => 0) {} grow := by
    intro call session _ _
    exact .of_eq rfl fun _ _ _ quiet => nomatch quiet
  have computingLowers : Lowers ComputationCall.toCall Prod.fst (fun _ => 0) {} growing := by
    intro call session _ _
    exact .of_eq rfl fun _ _ _ quiet => nomatch quiet
  obtain ⟨drives, computes⟩ := drivers_terminate_under_decreasing_measure (ν := Term) (σ := Unit) (A := Unit)
    (ρ := Nat) {} (fun _ => 0) (fun _ => 0) (fun _ => Nat.le_refl 0)
  obtain ⟨simplifies, -, optimizes⟩ := drives ⟨[grow]⟩ (List.forall_mem_singleton.mpr lowers) root
  obtain ⟨-, -, watches⟩ := optimizes limits
  obtain ⟨after, failed⟩ : ∃ after, optimize ⟨{}, ⟨[grow]⟩, fun _ => 0⟩ limits root session =
      .error (.error (.recursionLimit 2)) after := ⟨_, rfl⟩
  obtain ⟨noted, admitted, watched⟩ := watches 4 (by decide) session
  rw [failed] at watched
  have seen : ∃ after, optimizeWatched ⟨{}, ⟨[grow]⟩, fun _ => 0⟩ limits 4 root (session.watched ⟨guard, []⟩) =
      .error (.error (.recursionLimit 2)) after ∧ after.client.2.starts = starts := ⟨_, rfl, rfl⟩
  obtain ⟨final, ran, started⟩ := seen
  obtain rfl : after.watched ⟨guard, noted⟩ = final := (EStateM.Result.error.inj (watched.symm.trans ran)).2
  obtain rfl : noted = starts := started
  obtain ⟨computed, -⟩ := computes ⟨[growing]⟩ (List.forall_mem_singleton.mpr computingLowers) () root
  exact ⟨lowers, computingLowers, simplifies, computed, admitted, after, failed, ran⟩

end QueryOptimizer
