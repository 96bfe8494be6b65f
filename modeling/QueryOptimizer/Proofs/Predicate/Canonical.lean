import QueryOptimizer.Proofs.Predicate.Simplest

/-!
Simplification of predicates comes to the simplest form, with the rules in any order, and with the rules for scalars
in any order inside of that.
-/
namespace QueryOptimizer.Predicate

theorem RestatedAs.simplest {environment : Environment} {id : NodeId} {current node : Predicate} {values : List Scalar}
    (restated : RestatedAs id current values node)
    (same : values.map (Scalar.simplest environment) = current.scalars.map (Scalar.simplest environment)) :
    node.simplest environment = current.simplest environment := by
  cases restated with
  | compare =>
    obtain ⟨left, rest⟩ := List.cons_eq_cons.mp same
    rw [Predicate.simplest, Predicate.simplest, left, List.singleton_inj.mp rest]
  | isNull => rw [Predicate.simplest, Predicate.simplest, List.singleton_inj.mp same]

section Scalars
variable {environment : Environment} {scalarRules : RuleSet Scalar ScalarKind Scalar.Action}
variable (sameScalarRules : ∀ rule, rule ∈ scalarRules.rules ↔ rule ∈ Scalar.allRules)
include sameScalarRules

/-- The rule for scalars leaves a node over plain scalars in place, or replaces it by one of the same form. -/
theorem simplifyOperands_improves {nodes : Set Predicate} (call : Call Predicate) {session : Session Unit}
    (about : call.current.scalars ≠ []) (settles : SettledIn nodes session) (present : call.current ∈ nodes) :
    Returns ((simplifyOperands scalarRules).action call) session fun response after =>
      (response.results = [] ∧ SettledIn nodes after ∧
        ∀ scalar ∈ call.current.scalars, Throughout (Scalar.Plain call.environment) scalar) ∨
      ∃ node, response.results = [node] ∧ response.reExplore = false ∧ SettledIn (insert node nodes) after ∧
        Improves weight (simplest call.environment) (insert node nodes) call.current node := by
  have known : ∀ scalar ∈ call.current.scalars, scalar ∈ scalarNodes nodes :=
    fun scalar member => mem_scalarNodes present member
  dsimp only [simplifyOperands]
  refine .bind ((simplifyScalars_simplest sameScalarRules settles.scalars known).imp ?_)
  rintro simplified after ⟨more, wider, included, arena, each⟩
  generalize simplified.map Constrained.value = values at each ⊢
  have joined := forall_mem_of_forall₂ each fun _ _ held => held.1
  have lightened := each.imp fun _ _ held => held.2.2.2
  split
  · rename_i same
    have kept : call.current.scalars = values := arena.eq_of_sameNodes each.length_eq
      (fun scalar member => included (known scalar member)) joined (List.all_eq_true.mp same)
    refine .pure (.inl ⟨rfl, ⟨settles.arena.mono more, arena.restrict included (scalarNodes_closed _)⟩, ?_⟩)
    rw [kept]
    exact forall_mem_of_forall₂ each fun _ _ held => held.2.1
  · rename_i changed
    have changes : ∃ pair ∈ call.current.scalars.zip values, ¬ sameNode pair.1 pair.2 = true := by
      simpa using changed
    refine .bind ((withScalars_restates about each.length_eq after).imp ?_)
    rintro node later ⟨restated, rfl⟩
    have leaf : Tree.children node = [] := restated.children
    have new : Arena (insert node nodes) after.supply.draw.2 := by
      refine (settles.arena.mono more).insert restated.identity ?_
      rw [leaf]
      exact List.forall_mem_nil _
    have lower := totalOf_lt_of_lightened lightened changes
    have balance := restated.weight
    refine .pure (.inr ⟨node, rfl, rfl, ?_, Set.mem_insert _ _, ?_, ?_, ?_⟩)
    · exact .insert new (arena.mono (Nat.le_succ _)) included
        fun scalar member => joined scalar (restated.scalars ▸ member)
    · exact restated.simplest (map_eq_of_alike (each.imp fun _ _ held => held.2.2.1))
    · rw [leaf]
      exact List.forall_mem_nil _
    · omega

theorem callRule_simplifyOperands {nodes : Set Predicate} {ledger : Ledger Predicate Unit} (root : Predicate)
    {current : Predicate} (bindings : Bindings Predicate) (about : current.scalars ≠ [])
    (settles : SettledIn nodes ledger.toSession) (present : current ∈ nodes) :
    Returns (callRule environment (simplifyOperands scalarRules) root current bindings) ledger fun yielded? after =>
      (yielded? = none ∧ SettledIn nodes after.toSession ∧
        ∀ scalar ∈ current.scalars, Throughout (Scalar.Plain environment) scalar) ∨
      ∃ node, yielded? = some ⟨node, false⟩ ∧ SettledIn (insert node nodes) after.toSession ∧
        Improves weight (simplest environment) (insert node nodes) current node := by
  let call := ledger.call environment (simplifyOperands scalarRules) root current bindings
  refine callRule_ends ((simplifyOperands_improves sameScalarRules call about settles present).imp ?_)
  rintro response session (⟨empty, rest⟩ | ⟨node, single, quiet, rest⟩)
  · exact .inl ⟨empty, .inl ⟨rfl, rest⟩⟩
  · exact .inr ⟨node, single, .inr ⟨node, by rw [quiet], rest⟩⟩

/-- A call of a simplifying rule over plain nodes leads to a node of the same form, if to any. -/
theorem callRule_improves {rule : PredicateRule} (isRule : rule ∈ (allRules scalarRules).dropLast)
    {nodes : Set Predicate} {ledger : Ledger Predicate Unit} (root : Predicate) {current : Predicate}
    {bindings : Bindings Predicate} (matched : bindings ∈ rule.pattern.allMatches .empty current)
    (settles : SettledIn nodes ledger.toSession) (present : current ∈ nodes)
    (below : ThroughoutBelow (Plain environment) current) :
    Returns (callRule environment rule root current bindings) ledger fun yielded? after =>
      ∃ wider, nodes ⊆ wider ∧ SettledIn wider after.toSession ∧ ∀ yielded, yielded? = some yielded →
        yielded.reExplore = false ∧ Improves weight (simplest environment) wider current yielded.node := by
  rcases isStep_of_mem_dropLast environment isRule with rfl | isStep
  · have about : current.scalars ≠ [] := by simpa using (Pattern.mem_allMatches_filter.mp matched).1
    refine (callRule_simplifyOperands sameScalarRules root bindings about settles present).imp ?_
    rintro yielded? after (⟨rfl, settles, -⟩ | ⟨node, rfl, settles, improves⟩)
    · exact ⟨nodes, subset_rfl, settles, nofun⟩
    · refine ⟨_, Set.subset_insert _ _, settles, ?_⟩
      rintro yielded ⟨⟩
      exact ⟨rfl, improves⟩
  · refine (isStep.callRule root matched ledger).imp ?_
    rintro yielded? after (⟨session, rfl, rfl, more, -⟩ | ⟨node, constraint, session, rfl, rfl, step⟩)
    · exact ⟨nodes, subset_rfl, ⟨settles.arena.mono more, settles.scalars.mono more⟩, nofun⟩
    · refine ⟨_, Set.subset_insert _ _, step.settles settles present, ?_⟩
      rintro yielded ⟨⟩
      exact ⟨rfl, Set.mem_insert _ _, step.simplest settles present below, step.derived.down, step.lighter⟩

/-- At a node over plain nodes at which all rules are idle, none of them has anything to do. -/
theorem plain_of_idle {rules : RuleSet Predicate PredicateKind Action}
    (all : (allRules scalarRules).dropLast ⊆ rules.rules) {node : Predicate}
    (idle : Idle (setting environment rules) (fun nodes ledger => SettledIn nodes ledger.toSession)
      (fun nodes node => node ∈ nodes) node) : Plain environment node := by
  have away : StepsAway (setting environment rules) (fun nodes ledger => SettledIn nodes ledger.toSession)
      (fun nodes node => node ∈ nodes) node :=
    fun _ _ _ _ _ settles present step => step.different settles.arena present
  refine ⟨?_, unfolded_of_idle all idle away, ?_⟩
  · by_cases about : node.scalars = []
    · rw [about]
      exact List.forall_mem_nil _
    · refine idle.declined (all (by simp [allRules] : simplifyOperands scalarRules ∈ _)) rfl
        (Pattern.mem_allMatches_filter.mpr ⟨by simpa using about, rfl⟩) ?_
      intro nodes ledger root settles present
      refine (callRule_simplifyOperands sameScalarRules root _ about settles present).imp ?_
      rintro yielded? after (⟨-, -, plain⟩ | ⟨replacement, rfl, settles, improves⟩)
      · exact .inl plain
      · exact .inr ⟨_, rfl, improves.different settles.arena (Set.mem_insert_of_mem _ present)⟩
  · cases node with
    | not id operand => exact operand_of_idle all idle away
    | and id operands => exact normalNode_of_idle all (.inl rfl) idle away
    | or id operands => exact normalNode_of_idle all (.inr rfl) idle away
    | constant | compare | isNull => trivial

/-- With the rules in any order, simplification comes to the simplest form. -/
theorem simplify_simplest (environment : Environment) {rules : List PredicateRule}
    (same : ∀ rule, rule ∈ rules ↔ rule ∈ (allRules scalarRules).dropLast) {nodes : Set Predicate}
    {predicate : Predicate} {session : Session Unit} (settles : SettledIn nodes session)
    (present : predicate ∈ nodes) :
    Returns (simplify (setting environment ⟨rules⟩) predicate) session fun simplified _ =>
      simplified.value.bare = simplest environment predicate := by
  refine (simplify_reaches settledIn_habitat (simplest environment) (Plain environment) simplest_composed ?_ ?_
    settles present).imp ?_
  · intro nodes ledger root current settles present below application member
    obtain ⟨⟨isRule, -⟩, matched⟩ := mem_applications.mp member
    exact callRule_improves sameScalarRules ((same _).mp isRule) root matched settles present below
  · intro node _ idle
    exact plain_of_idle sameScalarRules (fun _ => (same _).mpr) idle
  · rintro simplified after ⟨wider, -, -, -, plain, form⟩
    exact (simplest_of_plain plain).symm.trans form

end Scalars

/-- If neutral operands leave a single comparison in nested conjunctions, then it takes their place, and a negation of
them negates it. -/
example : simplest {}
    (.not ⟨6⟩ (.and ⟨5⟩ [.constant ⟨0⟩ .holds, .and ⟨4⟩ [.constant ⟨1⟩ .holds,
      .compare ⟨3⟩ .lt (.column ⟨0⟩ ⟨"t"⟩ "a") (.call ⟨2⟩ .add [.literal ⟨1⟩ (.int 1), .literal ⟨3⟩ (.int 2)])]])) =
      .compare ⟨0⟩ .gte (.column ⟨0⟩ ⟨"t"⟩ "a") (.literal ⟨0⟩ (.int 3)) :=
  rfl

end QueryOptimizer.Predicate
