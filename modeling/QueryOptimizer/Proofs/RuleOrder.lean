import QueryOptimizer.Proofs.Predicate.Canonical
import QueryOptimizer.Proofs.Soundness

/-!
The order of the rules. Whichever way the rules for scalars and those for predicates are ordered, simplification
returns the same values: the simplest forms, which are defined without any order.
-/
namespace QueryOptimizer

/-- With either set of rules, simplification returns for every tree that is formed, and the two values agree. The
runs may start in different sessions. -/
def SimplifyAlike {ν ω : Type} [Tree ν ω] [DecidableEq ω] (formed : ν → Supply → Prop) (agree : ν → ν → Bool)
    (setting : RuleSet ν ω (Call ν → RuleM Unit (Response ν)) → Setting ν ω (Call ν → RuleM Unit (Response ν)))
    (rules others : RuleSet ν ω (Call ν → RuleM Unit (Response ν))) : Prop :=
  ∀ (root : ν) (session later : Session Unit), formed root session.supply → formed root later.supply →
    Returns (simplify (setting rules) root) session fun simplified _ =>
      Returns (simplify (setting others) root) later fun other _ => agree simplified.value other.value = true

theorem Scalar.simplifyAlike (environment : Environment) {rules others : List ScalarRule}
    (same : ∀ rule, rule ∈ rules ↔ rule ∈ allRules) (alike : ∀ rule, rule ∈ others ↔ rule ∈ allRules) :
    SimplifyAlike WellFormed agrees (setting environment) ⟨rules⟩ ⟨others⟩ := by
  intro scalar session later formed otherFormed
  have root := Tree.root_mem_postOrder scalar
  refine (simplify_simplest environment same formed root).imp ?_
  rintro simplified _ ⟨_, _, _, _, _, form⟩
  refine (simplify_simplest environment alike otherFormed root).imp ?_
  rintro other _ ⟨_, _, _, _, _, otherForm⟩
  exact (agrees_iff_bare_eq _ _).mpr (form.trans otherForm.symm)

theorem Predicate.simplifyAlike (environment : Environment)
    {scalarRules otherScalarRules : RuleSet Scalar ScalarKind Scalar.Action} {rules others : List PredicateRule}
    (sameScalarRules : ∀ rule, rule ∈ scalarRules.rules ↔ rule ∈ Scalar.allRules)
    (alikeScalarRules : ∀ rule, rule ∈ otherScalarRules.rules ↔ rule ∈ Scalar.allRules)
    (same : ∀ rule, rule ∈ rules ↔ rule ∈ (allRules scalarRules).dropLast)
    (alike : ∀ rule, rule ∈ others ↔ rule ∈ (allRules otherScalarRules).dropLast) :
    SimplifyAlike WellFormed agrees (setting environment) ⟨rules⟩ ⟨others⟩ := by
  intro predicate session later formed otherFormed
  have root := Tree.root_mem_postOrder predicate
  refine (simplify_simplest sameScalarRules environment same formed root).imp ?_
  intro simplified _ form
  refine (simplify_simplest alikeScalarRules environment alike otherFormed root).imp ?_
  intro other _ otherForm
  exact (agrees_iff_bare_eq _ _).mpr (form.trans otherForm.symm)

/-- Let the default rules for scalars be added to a builder in any order and without dependencies, and also the
default rules for predicates, which simplify scalars with the set that the first builder makes. Both builders make
a set, and in every environment simplification with it returns values that are equal, apart from the identities of
nodes, to those that it returns with the rules in their usual order. -/
theorem simplified_values_do_not_depend_on_rule_order (environment : Environment)
    {scalarOrder : List Scalar.ScalarRule} (scalarPermutation : scalarOrder.Perm Scalar.defaultRuleBuilder.added) :
    ∃ scalarRules usualScalarRules, (RuleSetBuilder.inTurn scalarOrder).build = .ok scalarRules ∧
      Scalar.defaultRules = .ok usualScalarRules ∧
      SimplifyAlike WellFormed Scalar.agrees (Scalar.setting environment) scalarRules usualScalarRules ∧
      ∀ predicateOrder : List Predicate.PredicateRule,
        predicateOrder.Perm (Predicate.defaultRuleBuilder scalarRules).added →
        ∃ rules usualRules, (RuleSetBuilder.inTurn predicateOrder).build = .ok rules ∧
          Predicate.defaultRules = .ok usualRules ∧
          SimplifyAlike Predicate.WellFormed Predicate.agrees (Predicate.setting environment) rules usualRules := by
  have sameScalarRules : ∀ rule, rule ∈ scalarOrder ↔ rule ∈ Scalar.allRules := fun _ => scalarPermutation.mem_iff
  refine ⟨⟨scalarOrder⟩, _, RuleSetBuilder.build_inTurn _, Scalar.defaultRules_eq,
    Scalar.simplifyAlike environment sameScalarRules fun _ => Iff.rfl, ?_⟩
  intro predicateOrder permutation
  exact ⟨_, _, RuleSetBuilder.build_inTurn _, Predicate.defaultRules_eq,
    Predicate.simplifyAlike environment sameScalarRules (fun _ => Iff.rfl) (fun _ => permutation.mem_iff)
      fun _ => Iff.rfl⟩

/-- A sum of a parameter that is constant for the execution with itself, and a negated null test of it, with all
rules in the opposite order. -/
theorem simplified_values_do_not_depend_on_rule_order_reversed :
    Scalar.defaultRuleBuilder.added.reverse.Perm Scalar.defaultRuleBuilder.added ∧
      WellFormed (Scalar.call ⟨1⟩ .add [.parameter ⟨0⟩ ⟨"p"⟩, .parameter ⟨0⟩ ⟨"p"⟩]) ⟨2⟩ ∧
      (Predicate.not ⟨3⟩ (.isNull ⟨2⟩ (.call ⟨1⟩ .add [.parameter ⟨0⟩ ⟨"p"⟩, .parameter ⟨0⟩ ⟨"p"⟩]))).WellFormed ⟨4⟩ ∧
      ∃ scalarRules usualScalarRules rules usualRules,
        (RuleSetBuilder.inTurn Scalar.defaultRuleBuilder.added.reverse).build = .ok scalarRules ∧
        Scalar.defaultRules = .ok usualScalarRules ∧
        (RuleSetBuilder.inTurn (Predicate.defaultRuleBuilder scalarRules).added.reverse).build = .ok rules ∧
        Predicate.defaultRules = .ok usualRules ∧
        (Returns
          (simplify (Scalar.setting { parameters := .bind .empty ⟨"p"⟩ (.int 0), constants := .of ⟨"p"⟩ } scalarRules)
            (.call ⟨1⟩ .add [.parameter ⟨0⟩ ⟨"p"⟩, .parameter ⟨0⟩ ⟨"p"⟩])) ⟨⟨2⟩, ()⟩ fun simplified _ =>
          Returns
            (simplify (Scalar.setting { parameters := .bind .empty ⟨"p"⟩ (.int 0), constants := .of ⟨"p"⟩ }
              usualScalarRules) (.call ⟨1⟩ .add [.parameter ⟨0⟩ ⟨"p"⟩, .parameter ⟨0⟩ ⟨"p"⟩])) ⟨⟨2⟩, ()⟩
            fun other _ => Scalar.agrees simplified.value other.value = true) ∧
        Returns
          (simplify (Predicate.setting { parameters := .bind .empty ⟨"p"⟩ (.int 0), constants := .of ⟨"p"⟩ } rules)
            (.not ⟨3⟩ (.isNull ⟨2⟩ (.call ⟨1⟩ .add [.parameter ⟨0⟩ ⟨"p"⟩, .parameter ⟨0⟩ ⟨"p"⟩])))) ⟨⟨4⟩, ()⟩
          fun simplified _ =>
            Returns
              (simplify (Predicate.setting { parameters := .bind .empty ⟨"p"⟩ (.int 0), constants := .of ⟨"p"⟩ }
                usualRules)
                (.not ⟨3⟩ (.isNull ⟨2⟩ (.call ⟨1⟩ .add [.parameter ⟨0⟩ ⟨"p"⟩, .parameter ⟨0⟩ ⟨"p"⟩])))) ⟨⟨4⟩, ()⟩
              fun other _ => Predicate.agrees simplified.value other.value = true := by
  have parameterFormed : WellFormed (Scalar.parameter ⟨0⟩ ⟨"p"⟩) ⟨1⟩ := .leaf rfl Nat.zero_lt_one
  have sumFormed : WellFormed (Scalar.call ⟨1⟩ .add [.parameter ⟨0⟩ ⟨"p"⟩, .parameter ⟨0⟩ ⟨"p"⟩]) ⟨2⟩ :=
    parameterFormed.parent (by simp [Tree.children, Scalar.children]) rfl
  have testFormed : (Predicate.not ⟨3⟩ (.isNull ⟨2⟩
      (.call ⟨1⟩ .add [.parameter ⟨0⟩ ⟨"p"⟩, .parameter ⟨0⟩ ⟨"p"⟩]))).WellFormed ⟨4⟩ :=
    (Predicate.WellFormed.isNull sumFormed).not
  obtain ⟨scalarRules, usualScalarRules, builds, usualBuilds, scalarsAlike, predicatesAlike⟩ :=
    simplified_values_do_not_depend_on_rule_order
      { parameters := .bind .empty ⟨"p"⟩ (.int 0), constants := .of ⟨"p"⟩ }
      (List.reverse_perm Scalar.defaultRuleBuilder.added)
  obtain ⟨rules, usualRules, makes, usualMakes, alike⟩ := predicatesAlike _ (List.reverse_perm _)
  exact ⟨List.reverse_perm _, sumFormed, testFormed, scalarRules, usualScalarRules, rules, usualRules, builds,
    usualBuilds, makes, usualMakes, scalarsAlike _ ⟨⟨2⟩, ()⟩ ⟨⟨2⟩, ()⟩ sumFormed sumFormed,
    alike _ ⟨⟨4⟩, ()⟩ ⟨⟨4⟩, ()⟩ testFormed testFormed⟩

end QueryOptimizer
