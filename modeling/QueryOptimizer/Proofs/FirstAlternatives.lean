import QueryOptimizer.Proofs.Predicate.Contract
import QueryOptimizer.Proofs.Simplification.Stages
import QueryOptimizer.Proofs.Term

/-!
The two ways of applying rules to a node, to a fixpoint and one step at a time: a fixpoint is what comes of always
taking the first alternative.
-/
namespace QueryOptimizer

/-- The default rules never fail, never ask for re-exploration and yield one node at most. Neither their patterns nor
their actions tell apart structurally equal expressions, and what they yield depends on nothing else. -/
theorem defaultRules_answer_by_forms (environment : Environment) :
    (Structural Scalar.bare ∧ ∃ rules, Scalar.defaultRules = .ok rules ∧ ∀ rule ∈ rules.rules,
      rule.pattern.Respects Scalar.bare ∧ ∃ answer, AnswersBy Scalar.Settled environment Scalar.bare rule answer) ∧
    Structural Predicate.bare ∧ ∃ rules, Predicate.defaultRules = .ok rules ∧ ∀ rule ∈ rules.rules,
      rule.pattern.Respects Predicate.bare ∧
        ∃ answer, AnswersBy Predicate.SettledIn environment Predicate.bare rule answer :=
  ⟨⟨Scalar.structural_bare, _, Scalar.defaultRules_eq, fun rule member =>
      ⟨Scalar.allRules_respect rule member, Scalar.allRules_answer environment rule member⟩⟩,
    Predicate.structural_bare, _, Predicate.defaultRules_eq, fun rule member =>
      ⟨Predicate.simplifyingRules_respect rule member, Predicate.simplifyingRules_answer environment rule member⟩⟩

/-- Given are rules that never fail, never ask for re-exploration and yield one node at most, of a form that depends
on nothing but the forms of the current node and of its bindings, in an environment that is the same throughout; and
a tree whose children simplification returns as they are, but for identities. If simplification returns for the tree,
with whatever patience, then always taking the first alternative leads from the tree to a node without any, the first
such node, and the returned tree has its form. If taking the first alternative never leads to a node without any,
then simplification goes on for as long as it is let.

The two ways give new nodes different identities, and so dependence on the current node is dependence on its form. A
rule that compares the identities of nodes below the current one tells apart nodes of one form, and is not among the
given ones. -/
theorem simplify_iterates_first_alternatives {ν ω σ φ : Type} [Tree ν ω] [LawfulTree ν] [DecidableEq ω]
    (environment : Environment) (rules : RuleSet ν ω (Call ν → RuleM σ (Response ν)))
    {settled : Set ν → Session σ → Prop} (habitat : SessionHabitat settled)
    (existing : ∀ rule ∈ rules.rules, YieldsExisting settled environment rule)
    {form : ν → φ} (structural : Structural form)
    (respects : ∀ rule ∈ rules.rules, rule.pattern.Respects form)
    (answering : ∀ rule ∈ rules.rules, ∃ answer, AnswersBy settled environment form rule answer) {root : ν}
    (unchanged : ∀ child ∈ Tree.children root, ∃ patience nodes session simplified after, settled nodes session ∧
      child ∈ nodes ∧ simplify ⟨environment, rules, patience⟩ child session = .ok simplified after ∧
        form simplified.value = form child)
    {nodes others : Set ν} {session later : Session σ} (settles : settled nodes session) (present : root ∈ nodes)
    (settling : settled others later) (occurs : root ∈ others) :
    (∀ patience, Ends (simplify ⟨environment, rules, patience⟩ root) session
      (fun simplified _ => ∃ count last, LeadsTo environment rules root later count last ∧
        form simplified.value = form last)
      fun interruption _ => interruption = .outOfSteps) ∧
    ((∀ count last between, firstAlternatives environment rules count root later = .ok (some last) between →
        ∀ after, simplifyCurrent environment rules last between ≠ .ok [] after) →
      ∀ patience, ∃ after, simplify ⟨environment, rules, patience⟩ root session = .error .outOfSteps after) := by
  choose! answer answers using answering
  have comes : ∀ child ∈ Tree.children root, Comes environment rules settled form child (form child) := by
    intro child member
    obtain ⟨patience, others, session, simplified, after, settles, present, returned, same⟩ := unchanged child member
    exact same ▸ (simplify_comes settles present).at_ok returned
  have returning (patience : ν → Nat) : Ends (simplify ⟨environment, rules, patience⟩ root) session
      (fun simplified _ => ∃ count last, LeadsTo environment rules root later count last ∧
        form simplified.value = form last)
      fun interruption _ => interruption = .outOfSteps := by
    refine (simplify_ceases existing answers structural respects habitat comes settles present).imp ?_
    rintro simplified - ⟨count, ceases⟩
    obtain ⟨last, leads, same⟩ := leadsTo_of_ceases existing answers structural respects ceases rfl settling occurs
    exact ⟨count, last, leads, same.symm⟩
  refine ⟨returning, fun endless patience => ?_⟩
  cases found : simplify ⟨environment, rules, patience⟩ root session with
  | ok simplified after =>
    obtain ⟨count, last, ⟨⟨between, final, leads, ends⟩, -⟩, -⟩ := (returning patience).at_ok found
    exact absurd ends (endless count last between leads final)
  | error interruption after =>
    obtain rfl := (returning patience).at_error found
    exact ⟨after, rfl⟩

/-- Three rules that rename operators, of which two apply to the same one. Simplification takes the earlier of
these, which gives the first alternative. -/
theorem simplify_iterates_first_alternatives_three_renamings :
    let rules : RuleSet Term String (Call Term → RuleM Unit (Response Term)) :=
      ⟨[Term.rename "ToC" "a" "c", Term.rename "ToA" "f" "a", Term.rename "ToB" "a" "b"]⟩
    let leaf : Term := .leaf ⟨0⟩ 1
    let root : Term := .apply ⟨1⟩ "f" [leaf]
    let session : Session Unit := ⟨⟨2⟩, ()⟩
    WellFormed root session.supply ∧
      (∀ rule ∈ rules.rules, ∃ answer, AnswersBy Term.Settled {} Term.bare rule answer) ∧
      (∃ alternatives after, simplifyCurrent {} rules (.apply ⟨1⟩ "a" [leaf]) session = .ok alternatives after ∧
        alternatives.map Constrained.value = [.apply ⟨2⟩ "c" [leaf], .apply ⟨3⟩ "b" [leaf]]) ∧
      ∃ simplified after count last, simplify ⟨{}, rules, fun _ => 2⟩ root session = .ok simplified after ∧
        LeadsTo {} rules root session count last ∧ simplified.value.bare = last.bare ∧
        simplified.value = .apply ⟨3⟩ "c" [leaf] := by
  intro rules leaf root session
  have leafFormed : WellFormed leaf ⟨1⟩ := .leaf rfl Nat.zero_lt_one
  have formed : WellFormed root session.supply := leafFormed.parent (fun _ => List.mem_singleton) rfl
  have renames : ∀ rule ∈ rules.rules, ∃ name source target, rule = Term.rename name source target := by
    simp only [rules, List.forall_mem_cons]
    exact ⟨⟨_, _, _, rfl⟩, ⟨_, _, _, rfl⟩, ⟨_, _, _, rfl⟩, List.forall_mem_nil _⟩
  have answering : ∀ rule ∈ rules.rules, ∃ answer, AnswersBy Term.Settled {} Term.bare rule answer := by
    intro rule member
    obtain ⟨name, source, target, rfl⟩ := renames rule member
    exact ⟨_, Term.rename_answersBy {} name source target⟩
  have existing : ∀ rule ∈ rules.rules, YieldsExisting Term.Settled {} rule := by
    intro rule member
    obtain ⟨name, source, target, rfl⟩ := renames rule member
    exact Term.rename_yieldsExisting {} name source target
  have respects : ∀ rule ∈ rules.rules, rule.pattern.Respects Term.bare := by
    intro rule member
    obtain ⟨name, source, target, rfl⟩ := renames rule member
    trivial
  have run (term : Term) {node : Term} {after : Ledger Term Unit}
      (folded : Tree.fold (simplifyNode ⟨{}, rules, fun _ => 2⟩ term) term { toSession := session } = .ok node after) :
      simplify ⟨{}, rules, fun _ => 2⟩ term session =
        .ok ⟨node, collectConstraints after.constraints node⟩ after.toSession := by
    rw [simplify, Tree.mapPostOrder_eq_fold, bind_of_ok (onFreshLedger_of_ok folded)]
    rfl
  obtain ⟨_, leafFolded⟩ : ∃ after, Tree.fold (simplifyNode ⟨{}, rules, fun _ => 2⟩ leaf) leaf
      { toSession := session } = .ok leaf after := by
    simp only [Tree.fold_eq, leaf, Tree.children, Term.arguments, List.mapM_nil]
    exact ⟨_, rfl⟩
  obtain ⟨_, rootFolded⟩ : ∃ after, Tree.fold (simplifyNode ⟨{}, rules, fun _ => 2⟩ root) root
      { toSession := session } = .ok (.apply ⟨3⟩ "c" [leaf]) after := by
    simp only [Tree.fold_eq, root, leaf, Tree.children, Term.arguments, List.mapM_cons, List.mapM_nil]
    exact ⟨_, rfl⟩
  have rooted : root ∈ {node | node ∈ Tree.postOrder root} := Tree.root_mem_postOrder root
  have unchanged : ∀ child ∈ Tree.children root, ∃ patience nodes session simplified after,
      Term.Settled nodes session ∧ child ∈ nodes ∧
        simplify ⟨{}, rules, patience⟩ child session = .ok simplified after ∧
          simplified.value.bare = child.bare := by
    intro child member
    obtain rfl : child = leaf := List.mem_singleton.mp member
    exact ⟨_, _, session, _, _, formed, formed.closed root rooted _ member, run leaf leafFolded, rfl⟩
  obtain ⟨count, last, leads, same⟩ :=
    ((simplify_iterates_first_alternatives {} rules arena_habitat existing Term.structural_bare respects answering
      unchanged formed rooted formed rooted).1 _).at_ok (run root rootFolded)
  exact ⟨formed, answering, ⟨_, _, rfl, rfl⟩, _, _, count, last, run root rootFolded, leads, same, rfl⟩

end QueryOptimizer
