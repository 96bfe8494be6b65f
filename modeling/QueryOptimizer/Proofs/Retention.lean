import QueryOptimizer.Proofs.Scalar.Contract
import QueryOptimizer.Proofs.Simplification.History

/-!
No condition is lost along a chain of replacements.
-/
namespace QueryOptimizer

/-- Whatever rules a tree is rewritten by, what they see and what they attach: a run that returns goes the
same way for a client that logs every accepted call and, under re-exploration, every rebuilt node. If events of
this history pass on from node to node, and the last of them leads to a node of the returned tree, then the
conditions of all of them are part of the returned constraint. Only a root that optimization returns as it was
given has no constraint. -/
theorem returned_constraints_retain_history {ν ω σ : Type} [Tree ν ω] [DecidableEq ω] [LawfulTree ν]
    (setting : Setting ν ω (Call ν → RuleM σ (Response ν))) (limits : Limits)
    {settled : Set ν → Session σ → Prop} (habitat : SessionHabitat settled)
    (existing : ∀ rule ∈ setting.rules.rules, YieldsExisting settled setting.environment rule)
    {root : ν} {nodes : Set ν} {session : Session σ} (settles : settled nodes session) (present : root ∈ nodes) :
    (∀ simplified after, simplify setting root session = .ok simplified after →
      ∃ history, simplify (setting.lift logging) root (session.withHistory []) =
          .ok simplified (after.withHistory history) ∧ Retained history simplified) ∧
    (∀ optimized after, optimize setting limits root session = .ok optimized after →
      ¬ sameNode optimized.value root = true →
        ∃ history, optimizeNoting (setting.lift logging) logRebuilt limits root (session.withHistory []) =
            .ok optimized (after.withHistory history) ∧ Retained history optimized) :=
  ⟨fun _ _ => simplify_retains habitat existing settles present,
    fun _ _ => optimize_retains habitat existing limits settles present⟩

/-- The negation of a parameter that is constant for the execution, which becomes a literal in three events: the
parameter is inlined, the negation rebuilt over the literal, and folded. -/
theorem returned_constraints_retain_history_negated_parameter :
    let root : Scalar := .call ⟨1⟩ .neg [.parameter ⟨0⟩ ⟨"p"⟩]
    let rebuilt : Scalar := .call ⟨3⟩ .neg [.literal ⟨2⟩ (.int 5)]
    let setting := Scalar.setting { parameters := .bind .empty ⟨"p"⟩ (.int 5), constants := .of ⟨"p"⟩ }
      ⟨Scalar.allRules⟩
    let session : Session Unit := ⟨⟨2⟩, ()⟩
    WellFormed root session.supply ∧
      (∀ rule ∈ setting.rules.rules, YieldsExisting Scalar.Settled setting.environment rule) ∧
      (∃ simplified after history, simplify setting root session = .ok simplified after ∧
        simplify (setting.lift logging) root (session.withHistory []) =
          .ok simplified (after.withHistory history) ∧ Retained history simplified) ∧
      ∃ optimized after history, optimize setting {} root session = .ok optimized after ∧
        ¬ sameNode optimized.value root = true ∧
        optimizeNoting (setting.lift logging) logRebuilt {} root (session.withHistory []) =
          .ok optimized (after.withHistory history) ∧ Retained history optimized ∧
        history.map (fun event => (event.source, event.target)) =
          [(.parameter ⟨0⟩ ⟨"p"⟩, .literal ⟨2⟩ (.int 5)), (root, rebuilt), (rebuilt, .literal ⟨4⟩ (.int (-5)))] := by
  intro root rebuilt setting session
  have parameterFormed : WellFormed (Scalar.parameter ⟨0⟩ ⟨"p"⟩) ⟨1⟩ := .leaf rfl Nat.zero_lt_one
  have formed : WellFormed root session.supply := parameterFormed.parent (fun _ => List.mem_singleton) rfl
  have existing := Scalar.allRules_yieldExisting setting.environment
  obtain ⟨simplifying, optimizing⟩ := returned_constraints_retain_history setting {} arena_habitat existing formed
    (Tree.root_mem_postOrder root)
  obtain ⟨simplified, after, found, -⟩ := (Scalar.simplify_lightened setting.environment root session).returned
  obtain ⟨history, logged, retained⟩ := simplifying simplified after found
  have optimizes : ∃ constraint, optimize setting {} root session =
      .ok ⟨.literal ⟨4⟩ (.int (-5)), constraint⟩ ⟨⟨5⟩, ()⟩ := ⟨_, rfl⟩
  obtain ⟨constraint, reached⟩ := optimizes
  have changed : ¬ sameNode (Scalar.literal ⟨4⟩ (.int (-5))) root = true := by decide
  obtain ⟨events, noted, kept⟩ := optimizing _ _ reached changed
  have happened : ∃ optimized inlined folded,
      optimizeNoting (setting.lift logging) logRebuilt {} root (session.withHistory []) =
        .ok optimized (Session.withHistory ⟨⟨5⟩, ()⟩
          [⟨.parameter ⟨0⟩ ⟨"p"⟩, .literal ⟨2⟩ (.int 5), inlined⟩, ⟨root, rebuilt, .none⟩,
            ⟨rebuilt, .literal ⟨4⟩ (.int (-5)), folded⟩]) := ⟨_, _, _, rfl⟩
  obtain ⟨_, _, _, ran⟩ := happened
  obtain rfl : events = _ := congrArg (fun session => session.client.2) (EStateM.Result.ok.inj (noted.symm.trans ran)).2
  exact ⟨formed, existing, ⟨simplified, after, history, found, logged, retained⟩,
    _, _, _, reached, changed, noted, kept, rfl⟩

end QueryOptimizer
