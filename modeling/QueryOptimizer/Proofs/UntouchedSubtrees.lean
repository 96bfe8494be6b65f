import QueryOptimizer.Proofs.Scalar.Step
import QueryOptimizer.Proofs.Simplification.Occurrence

/-!
What simplification leaves alone. Nodes are only copied where something below them has changed.
-/
namespace QueryOptimizer

/-- Whatever the rules, a simplification that returns can be followed occurrence by occurrence, from the root to
every child of every node, and the occurrences account for all that was accepted from the rules. Where nothing was
replaced, at an occurrence and everywhere below it, the node has become what it was: that very node. Where nothing was
replaced at the occurrence itself, this is so if all children are still the nodes they were, and otherwise the
node has become a new one of the same kind, over exactly what its children have become; new to the tree as well,
unless a rule gives identities back. If nothing was replaced at all, the root is returned. -/
theorem untouched_occurrences_keep_their_identity {ν ω σ : Type} [Tree ν ω] [LawfulTree ν] [DecidableEq ω]
    (setting : Setting ν ω (Call ν → RuleM σ (Response ν))) {root : ν} {session after : Session σ}
    {simplified : Constrained ν} (returned : simplify setting root session = .ok simplified after) :
    ∃ history top,
      simplify (setting.lift logging) root (session.withHistory []) = .ok simplified (after.withHistory history) ∧
      simplifyOccurrences setting root (session.withHistory []) =
        .ok (simplified, top) (after.withHistory history) ∧
      (top.node = root ∧ top.result = simplified.value) ∧
      (∀ event, event ∈ history ↔ ∃ occurrence : Occurrence ν, occurrence.Within top ∧ event ∈ occurrence.events) ∧
      (∀ occurrence : Occurrence ν, occurrence.Within top →
        occurrence.children.map Occurrence.node = Tree.children occurrence.node ∧
        ((∀ inner : Occurrence ν, inner.Within occurrence → inner.Unreplaced) →
          occurrence.result = occurrence.node) ∧
        (occurrence.Unreplaced → occurrence.KeepsChildren → occurrence.result = occurrence.node) ∧
        (occurrence.Unreplaced → ¬ occurrence.KeepsChildren → occurrence.Rebuilt ∧
          ((∀ rule ∈ setting.rules.rules, OnlyDraws setting.environment rule) →
            session.supply.allocated ≤ (identity occurrence.result).index))) ∧
      ((∀ event ∈ history, ¬ event.Replaces) → simplified.value = root) := by
  rw [← session.view_withHistory ([] : History ν), ← setting.lift_id] at returned
  obtain ⟨final, logged, rfl⟩ := (simplify_projects (fun rule _ => logging_projects rule.action) root).returned
    returned
  obtain ⟨top, constraints, followed, node, result, ⟨events, added, happened⟩, economical, later⟩ :=
    (simplify_accounts root (session.withHistory [])).at_ok logged
  have history : final.client.2 = events := added.logged
  simp only [Occurrence.among_singleton] at happened economical later
  have whole (occurrence : Occurrence ν) (within : occurrence.Within top) (inner : Occurrence ν)
      (deeper : inner.Within occurrence) : inner.Economical :=
    economical inner (deeper.trans within)
  refine ⟨events, top, history ▸ logged, history ▸ followed, ⟨node, result⟩, happened, ?_, fun nowhere => ?_⟩
  · intro occurrence within
    have here := economical occurrence within
    refine ⟨here.nodes, Occurrence.result_eq_of_unreplaced (whole occurrence within), here.kept, ?_⟩
    intro unreplaced changes
    have rebuilt := here.rebuilt unreplaced changes
    exact ⟨rebuilt, fun draws => rebuilt.identity ▸ later draws occurrence within⟩
  · rw [← result, ← node]
    refine Occurrence.result_eq_of_unreplaced economical ?_
    intro inner within event member
    exact nowhere event ((happened event).mpr ⟨inner, within, member⟩)

/-- The sum of a parameter that is constant for the execution, taken twice, and a negated column. Both occurrences
of the parameter become literals of their own, the sum is a new one over those, and the negation stays in place. -/
theorem untouched_occurrences_keep_their_identity_shared_parameter :
    let shared : Scalar := .parameter ⟨0⟩ ⟨"p"⟩
    let untouched : Scalar := .call ⟨2⟩ .neg [.column ⟨1⟩ ⟨"q"⟩ "a"]
    let root : Scalar := .call ⟨3⟩ .add [shared, untouched, shared]
    let setting := Scalar.setting { parameters := .bind .empty ⟨"p"⟩ (.int 5), constants := .of ⟨"p"⟩ }
      ⟨Scalar.allRules⟩
    let session : Session Unit := ⟨⟨4⟩, ()⟩
    ∃ simplified after history top, simplify setting root session = .ok simplified after ∧
      simplifyOccurrences setting root (session.withHistory []) =
        .ok (simplified, top) (after.withHistory history) ∧
      top.Unreplaced ∧ ¬ top.KeepsChildren ∧ top.Rebuilt ∧
      top.children.map Occurrence.node = [shared, untouched, shared] ∧
      simplified.value = .call ⟨6⟩ .add [.literal ⟨4⟩ (.int 5), untouched, .literal ⟨5⟩ (.int 5)] := by
  intro shared untouched root setting session
  let sum : Scalar := .call ⟨6⟩ .add [.literal ⟨4⟩ (.int 5), untouched, .literal ⟨5⟩ (.int 5)]
  obtain ⟨ledger, folded⟩ : ∃ ledger, Tree.fold (simplifyNode setting root) root { toSession := session } =
      .ok sum ledger := by
    simp only [Tree.fold_eq, root, Tree.children, Scalar.children, shared, untouched, List.mapM_cons, List.mapM_nil]
    exact ⟨_, rfl⟩
  obtain ⟨children, final, noted⟩ : ∃ children final, Tree.fold (simplifyOccurrence setting root) root
      { toSession := session.withHistory [] } = .ok ⟨root, children, ⟨6⟩, [], sum⟩ final := by
    simp only [Tree.fold_eq, root, Tree.children, Scalar.children, shared, untouched, List.mapM_cons, List.mapM_nil]
    exact ⟨_, _, rfl⟩
  have found : simplify setting root session =
      .ok ⟨sum, collectConstraints ledger.constraints sum⟩ ledger.toSession := by
    rw [simplify, Tree.mapPostOrder_eq_fold, bind_of_ok (onFreshLedger_of_ok folded)]
    rfl
  obtain ⟨history, top, -, followed, ⟨node, result⟩, -, occurrences, -⟩ :=
    untouched_occurrences_keep_their_identity setting found
  obtain ⟨nodes, -, kept, rebuilt⟩ := occurrences top (.here top)
  have quiet : top.Unreplaced := by
    have ran := followed
    rw [simplifyOccurrences, Tree.mapPostOrder_eq_fold, bind_of_ok (onFreshLedger_of_ok noted)] at ran
    obtain rfl : _ = top := (Prod.mk.inj (EStateM.Result.ok.inj ran).1).2
    exact List.forall_mem_nil _
  have changes : ¬ top.KeepsChildren := by
    intro keeps
    have same : top.result = top.node := kept quiet keeps
    rw [result, node] at same
    have copied : identity sum = identity root := congrArg identity same
    exact absurd copied (by decide)
  refine ⟨_, _, history, top, found, followed, quiet, changes, (rebuilt quiet changes).1, ?_, rfl⟩
  rw [nodes, node]
  rfl

end QueryOptimizer
