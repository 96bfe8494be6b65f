import QueryOptimizer.Proofs.Predicate.NormalForm
import QueryOptimizer.Proofs.Simplification.Canonical

/-!
What predicates look like that the simplifying rules leave in place, whichever rules simplify the scalars.
-/
namespace QueryOptimizer.Predicate

variable {W : Type} {setting : Setting Predicate PredicateKind Action} {fits : W → Ledger Predicate Unit → Prop}
variable {keeps : W → Predicate → Prop}

/-- Wherever the node is called for, steps lead from it to other nodes. -/
def StepsAway (setting : Setting Predicate PredicateKind Action) (fits : W → Ledger Predicate Unit → Prop)
    (keeps : W → Predicate → Prop) (node : Predicate) : Prop :=
  ∀ world ledger replacement constraint after, fits world ledger → keeps world node →
    Step setting.environment ledger.constraints ledger.supply node replacement constraint after →
      ¬ sameNode replacement node = true

variable {scalarRules : RuleSet Scalar ScalarKind Scalar.Action}
variable (all : (allRules scalarRules).dropLast ⊆ setting.rules.rules)
include all

/-- A rule that matches a node at which all rules are idle has declined it. -/
theorem declined_of_idle {node : Predicate} (idle : Idle setting fits keeps node)
    (away : StepsAway setting fits keeps node) (rule : PredicateRule) (isRule : rule ∈ (allRules scalarRules).dropLast)
    {declines : Predicate → Prop} (isStep : Rule.IsStep setting.environment rule declines)
    (offered : rule.rootOperator?.all (· = node.kind) = true) {bindings : Bindings Predicate}
    (matched : bindings ∈ rule.pattern.allMatches .empty node) : declines node :=
  idle.declines (all isRule) offered matched isStep fun _ _ _ _ _ fit keep step => away _ _ _ _ _ fit keep step

/-- A negation is left in place over connectives and null tests only. -/
theorem operand_of_idle {id : NodeId} {operand : Predicate} (idle : Idle setting fits keeps (.not id operand))
    (away : StepsAway setting fits keeps (.not id operand)) :
    operand.kind ≠ .constant ∧ operand.kind ≠ .not ∧ operand.kind ≠ .compare := by
  refine ⟨fun isConstant => ?_, fun isNot => ?_, fun isCompare => ?_⟩
  · exact declined_of_idle all idle away notOverConstant (by simp [allRules]) (notOverConstant_isStep _) rfl
      (Pattern.mem_allMatches_exactly_one.mpr ⟨rfl, operand, rfl,
        Pattern.mem_allMatches_operator.mpr ⟨isConstant, rfl⟩⟩)
  · obtain ⟨innerId, inner, rfl⟩ : ∃ innerId inner, operand = .not innerId inner := by
      cases operand with
      | not innerId inner => exact ⟨innerId, inner, rfl⟩
      | constant | and | or | compare | isNull => cases isNot
    exact declined_of_idle all idle away doubleNegation (by simp [allRules]) (doubleNegation_isStep _) rfl
      (Pattern.mem_allMatches_exactly_one.mpr ⟨rfl, .not innerId inner, rfl,
        Pattern.mem_allMatches_exactly_one.mpr ⟨rfl, inner, rfl, Pattern.mem_allMatches_any.mpr rfl⟩⟩)
  · exact declined_of_idle all idle away notOverComparison (by simp [allRules]) (notOverComparison_isStep _) rfl
      (Pattern.mem_allMatches_exactly_one.mpr ⟨rfl, operand, rfl,
        Pattern.mem_allMatches_operator.mpr ⟨isCompare, rfl⟩⟩)

/-- A connective is left in place with nothing to flatten or absorb. -/
theorem normalNode_of_idle {kind : PredicateKind} (combines : IsConnectiveKind kind) {id : NodeId}
    {operands : List Predicate} (idle : Idle setting fits keeps (connective kind id operands))
    (away : StepsAway setting fits keeps (connective kind id operands)) :
    NormalNode (connective kind id operands) := by
  have same : (connective kind id operands).kind = kind := kind_connective combines id operands
  have irreducible := declined_of_idle all idle away absorbConstants (by simp [allRules]) (absorbConstants_isStep _) rfl
    (Pattern.mem_allMatches_filter.mpr ⟨by rcases combines with rfl | rfl <;> rfl, rfl⟩)
  have flat : ¬ isNested kind (connective kind id operands) = true := by
    intro nested
    rcases combines with rfl | rfl
    · exact declined_of_idle all idle away flattenConjunction (by simp [allRules]) (flatten_isStep _ _ _ (.inl rfl)) rfl
        (Pattern.mem_allMatches_filter.mpr ⟨nested, rfl⟩)
    · exact declined_of_idle all idle away flattenDisjunction (by simp [allRules]) (flatten_isStep _ _ _ (.inr rfl)) rfl
        (Pattern.mem_allMatches_filter.mpr ⟨nested, rfl⟩)
  rw [Irreducible, children_connective] at irreducible
  refine (normalNode_connective combines).mpr ⟨irreducible.1, ?_⟩
  intro operand member
  refine ⟨?_, irreducible.2 operand member⟩
  intro nested
  apply flat
  simp only [isNested, same, children_connective, Bool.and_eq_true, decide_eq_true_eq, List.any_eq_true,
    true_and]
  exact ⟨operand, member, nested⟩

/-- Comparisons and null tests of constants are not left in place, unless they have no truth value. -/
theorem unfolded_of_idle {node : Predicate} (idle : Idle setting fits keeps node)
    (away : StepsAway setting fits keeps node) : folded? node = none := by
  cases node with
  | compare =>
    exact declined_of_idle all idle away foldConstantComparison (by simp [allRules]) (foldConstantComparison_isStep _)
      rfl (Pattern.mem_allMatches_operator.mpr ⟨rfl, rfl⟩)
  | isNull =>
    exact declined_of_idle all idle away foldConstantNullTest (by simp [allRules]) (foldConstantNullTest_isStep _) rfl
      (Pattern.mem_allMatches_operator.mpr ⟨rfl, rfl⟩)
  | constant | and | or | not => rfl

end QueryOptimizer.Predicate
