import QueryOptimizer.Proofs.Predicate.Step
import QueryOptimizer.Proofs.Simplification.Hint
import QueryOptimizer.Proofs.Simplification.Results

/-!
Root operators of rules are hints: they decide which rules are tried, and never what comes of it.
-/
namespace QueryOptimizer

theorem Scalar.faithful_of_mem_allRules {rule : ScalarRule} (member : rule ∈ allRules) : rule.Faithful := by
  simp only [allRules, List.mem_cons, List.not_mem_nil, or_false] at member
  rcases member with rfl | rfl | rfl | rfl | rfl
  · exact Rule.faithful_of_kind? rfl
  · exact Rule.faithful_of_kind? rfl
  · exact Rule.faithful_of_none rfl
  · exact Rule.faithful_of_none rfl
  · exact Rule.faithful_of_none rfl

namespace Predicate

/-- Only a node of the given kind has operands of its own kind in it. -/
theorem flatten_faithful (name description : String) (kind : PredicateKind) :
    (flatten name description kind).Faithful := by
  rintro _ hinted node different
  obtain rfl : kind = _ := Option.some.inj hinted
  have untested : isNested kind node = false := by
    unfold isNested
    rw [decide_eq_false (show ¬ node.kind = kind from different), Bool.false_and]
  simp only [flatten, Pattern.allMatches, untested, Bool.false_eq_true, if_false]

theorem faithful_of_mem_allRules {scalarRules : RuleSet Scalar ScalarKind Scalar.Action} {rule : PredicateRule}
    (member : rule ∈ allRules scalarRules) : rule.Faithful := by
  simp only [allRules, List.mem_cons, List.not_mem_nil, or_false] at member
  rcases member with rfl | rfl | rfl | rfl | rfl | rfl | rfl | rfl | rfl | rfl | rfl
  · exact Rule.faithful_of_kind? rfl
  · exact Rule.faithful_of_none rfl
  · exact Rule.faithful_of_kind? rfl
  · exact Rule.faithful_of_kind? rfl
  · exact Rule.faithful_of_kind? rfl
  · exact Rule.faithful_of_kind? rfl
  · exact Rule.faithful_of_kind? rfl
  · exact flatten_faithful _ _ _
  · exact flatten_faithful _ _ _
  · exact Rule.faithful_of_none rfl
  · exact Rule.faithful_of_kind? rfl

end Predicate

/-- If no rule has a match on a node of another kind than the one it hints at, then all hints can be deleted: for
every tree and in every session, simplification, single steps, optimization within any limits and computation have
the same outcome, down to the session that they leave behind. All rules of the scalar, the predicate and the
normalizing set hint at no other kind than that of all nodes they match. -/
theorem hints_only_spare_the_search {ν ω σ A ρ : Type} [Tree ν ω] [DecidableEq ω] :
    (∀ setting : Setting ν ω (Call ν → RuleM σ (Response ν)), (∀ rule ∈ setting.rules.rules, rule.Faithful) →
      ∀ (root : ν) (session : Session σ),
        simplify setting.unhinted root session = simplify setting root session ∧
        simplifyCurrent setting.environment setting.unhinted.rules root session =
          simplifyCurrent setting.environment setting.rules root session ∧
        ∀ limits, optimize setting.unhinted limits root session = optimize setting limits root session) ∧
    (∀ setting : Setting ν ω (ComputationCall ν A ρ → RuleM σ (Response (ν × ρ))),
      (∀ rule ∈ setting.rules.rules, rule.Faithful) → ∀ (argument : A) (root : ν) (session : Session σ),
        compute setting.unhinted argument root session = compute setting argument root session) ∧
    (∃ rules, Scalar.defaultRules = .ok rules ∧ ∀ rule ∈ rules.rules, rule.Faithful) ∧
    (∃ rules, Predicate.defaultRules = .ok rules ∧ ∀ rule ∈ rules.rules, rule.Faithful) ∧
    (∃ rules, Predicate.normalizationRules = .ok rules ∧ ∀ rule ∈ rules.rules, rule.Faithful) := by
  refine ⟨?_, ?_, ⟨_, Scalar.defaultRules_eq, ?_⟩, ⟨_, Predicate.defaultRules_eq, ?_⟩,
    ⟨_, Predicate.normalizationRules_eq, ?_⟩⟩
  · intro setting faithful root session
    have driven := fixpoint_unhinted faithful
    refine ⟨?_, ?_, fun limits => ?_⟩
    · rw [simplify_of_fixpoint driven]
    · rw [simplifyCurrent_unhinted faithful]
    · rw [optimize_of_fixpoint driven]
  · intro setting faithful argument root session
    rw [compute_unhinted faithful]
  · exact fun rule member => Scalar.faithful_of_mem_allRules member
  · exact fun rule member => Predicate.faithful_of_mem_allRules (List.mem_of_mem_dropLast member)
  · exact fun rule member => Predicate.faithful_of_mem_allRules member

/-- A negated conjunction, and the normalizing rules, which push the negation down. Without hints they do the
same, also if they are made to count the nodes they yield. -/
theorem hints_only_spare_the_search_negated_conjunction :
    let test : Predicate := .isNull ⟨1⟩ (.column ⟨0⟩ ⟨"q"⟩ "a")
    let root : Predicate := .not ⟨3⟩ (.and ⟨2⟩ [test, test])
    let session : Session Unit := ⟨⟨4⟩, ()⟩
    let summary (_ : Unit) (_ : Predicate) (results : List (Option Nat)) : Nat := 1 + results.length
    ∃ rules, Predicate.normalizationRules = .ok rules ∧ (∀ rule ∈ rules.rules, rule.Faithful) ∧
      (Predicate.setting {} rules).unhinted.rules.rules.map Rule.rootOperator? ≠ rules.rules.map Rule.rootOperator? ∧
      optimize (Predicate.setting {} rules).unhinted {} root session =
        optimize (Predicate.setting {} rules) {} root session ∧
      simplifyCurrent {} (Predicate.setting {} rules).unhinted.rules root session =
        simplifyCurrent {} rules root session ∧
      compute ((Predicate.setting {} rules).computing summary).unhinted () root session =
        compute ((Predicate.setting {} rules).computing summary) () root session := by
  intro test root session summary
  obtain ⟨drives, computes, -, -, rules, built, faithful⟩ :=
    hints_only_spare_the_search (ν := Predicate) (σ := Unit) (A := Unit) (ρ := Nat)
  refine ⟨rules, built, faithful, ?_, ?_, ?_, ?_⟩
  · obtain rfl : rules = _ := Except.ok.inj (built.symm.trans Predicate.normalizationRules_eq)
    decide
  · exact (drives (Predicate.setting {} rules) faithful root session).2.2 {}
  · exact (drives (Predicate.setting {} rules) faithful root session).2.1
  · refine computes _ ?_ () root session
    intro rule member
    obtain ⟨simplifying, simplifies, rfl⟩ := List.mem_map.mp member
    exact faithful simplifying simplifies

end QueryOptimizer
