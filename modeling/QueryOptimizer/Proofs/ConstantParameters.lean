import QueryOptimizer.Proofs.Predicate.Normalization
import QueryOptimizer.Proofs.Scalar.Step
import QueryOptimizer.Proofs.Simplification.Indifference

/-!
Parameters that are not constant for the execution cannot influence a plan: every rule that looks a
parameter up has first seen that it is constant.
-/
namespace QueryOptimizer

/-- The same aliases are constant in both environments, and each of them is bound to the same value in
both, or to none. -/
structure Environment.AgreesOnConstants (one other : Environment) : Prop where
  constants : one.constants = other.constants
  values : ∀ symbol ∈ one.constants, one.parameters.get? symbol = other.parameters.get? symbol

/-- An alias is not constant in either environment, or has the same value in both. -/
theorem Environment.AgreesOnConstants.looksUp {one other : Environment} (agree : one.AgreesOnConstants other)
    (symbol : Alias) : one.constants.contains symbol = false ∨
      one.parameters.get? symbol = other.parameters.get? symbol := by
  cases constant : one.constants.contains symbol with
  | false => exact .inl rfl
  | true => exact .inr (agree.values symbol constant)

variable {one other : Environment} (agree : one.AgreesOnConstants other)
include agree

theorem Scalar.inlineConstantParameter_indifferent : Indifferent one other inlineConstantParameter := by
  intro call
  dsimp only [inlineConstantParameter]
  rw [← agree.constants]
  cases call.current with
  | parameter id symbol =>
    rcases agree.looksUp symbol with changing | same
    · simp only [changing, Bool.not_false, if_true]
    · simp only [same]
  | literal | column | call => rfl

theorem Scalar.allRules_indifferent : ∀ rule ∈ Scalar.allRules, Indifferent one other rule := by
  intro rule member
  simp only [allRules, List.mem_cons, List.not_mem_nil, or_false] at member
  rcases member with rfl | rfl | rfl | rfl | rfl
  · exact inlineConstantParameter_indifferent agree
  all_goals exact fun _ => rfl

namespace Predicate

theorem constantParameterNullTest_indifferent : Indifferent one other constantParameterNullTest := by
  intro call
  dsimp only [constantParameterNullTest]
  rw [← agree.constants]
  cases call.current with
  | isNull id operand =>
    cases operand with
    | parameter parameterId symbol =>
      rcases agree.looksUp symbol with changing | same
      · simp only [changing, Bool.not_false, if_true]
      · simp only [same]
    | literal | column | call => rfl
  | constant | and | or | not | compare => rfl

/-- The scalars of a predicate are simplified in the environment of the call. -/
theorem simplifyOperands_indifferent : Indifferent one other (simplifyOperands ⟨Scalar.allRules⟩) := by
  intro call
  have nested : simplify (Scalar.setting one ⟨Scalar.allRules⟩) = simplify (Scalar.setting other ⟨Scalar.allRules⟩) :=
    simplify_indifferent (Scalar.allRules_indifferent agree) Scalar.weight
  simp only [simplifyOperands, nested]

theorem allRules_indifferent : ∀ rule ∈ allRules ⟨Scalar.allRules⟩, Indifferent one other rule := by
  intro rule member
  simp only [allRules, List.mem_cons, List.not_mem_nil, or_false] at member
  rcases member with rfl | rfl | rfl | rfl | rfl | rfl | rfl | rfl | rfl | rfl | rfl
  · exact constantParameterNullTest_indifferent agree
  · exact simplifyOperands_indifferent agree
  all_goals exact fun _ => rfl

end Predicate

/-- In two environments that agree on what is constant, simplification by the default rules and optimization
by the normalizing rules within any limits have the same outcome for every expression: the same expression
under the same constraint, with the same identities handed out, or the same error. Nothing is assumed of the
other parameters, nor of the equalities between aliases. -/
theorem outcomes_depend_on_constants_alone (limits : Limits) :
    (∃ rules, Scalar.defaultRules = .ok rules ∧ ∀ (scalar : Scalar) (session : Session Unit),
      simplify (Scalar.setting one rules) scalar session = simplify (Scalar.setting other rules) scalar session) ∧
    (∃ rules, Predicate.defaultRules = .ok rules ∧ ∀ (predicate : Predicate) (session : Session Unit),
      simplify (Predicate.setting one rules) predicate session =
        simplify (Predicate.setting other rules) predicate session) ∧
    (∃ rules, Predicate.normalizationRules = .ok rules ∧ ∀ (predicate : Predicate) (session : Session Unit),
      optimize (Predicate.setting one rules) limits predicate session =
        optimize (Predicate.setting other rules) limits predicate session) := by
  have predicateRules := Predicate.allRules_indifferent agree
  refine ⟨⟨_, Scalar.defaultRules_eq, fun scalar session => ?_⟩,
    ⟨_, Predicate.defaultRules_eq, fun predicate session => ?_⟩,
    ⟨_, Predicate.normalizationRules_eq, fun predicate session => ?_⟩⟩
  · exact congrFun (congrFun (simplify_indifferent (Scalar.allRules_indifferent agree) Scalar.weight) scalar) session
  · have simplifying : ∀ rule ∈ Predicate.simplifyingRules, Indifferent one other rule :=
      fun rule member => predicateRules rule (Predicate.mem_allRules.mpr (.inl member))
    exact congrFun (congrFun (simplify_indifferent simplifying Predicate.weight) predicate) session
  · exact congrFun (congrFun (optimize_indifferent predicateRules Predicate.weight limits) predicate) session

omit agree in
/-- A parameter that is constant beside one that is not, bound in one environment and unbound in the other. The
first is replaced by its value in both, and the second stays in both. -/
theorem outcomes_depend_on_constants_alone_two_parameters :
    let one : Environment :=
      { parameters := .bind (.bind .empty ⟨"p"⟩ (.int 5)) ⟨"q"⟩ .null, constants := .of ⟨"p"⟩ }
    let other : Environment := { parameters := .bind .empty ⟨"p"⟩ (.int 5), constants := .of ⟨"p"⟩ }
    let sum : Scalar := .call ⟨2⟩ .add [.parameter ⟨0⟩ ⟨"p"⟩, .parameter ⟨1⟩ ⟨"q"⟩]
    one.AgreesOnConstants other ∧ one.parameters.get? ⟨"q"⟩ ≠ other.parameters.get? ⟨"q"⟩ ∧
      (∃ rules, Scalar.defaultRules = .ok rules ∧
        simplify (Scalar.setting one rules) sum ⟨⟨3⟩, ()⟩ = simplify (Scalar.setting other rules) sum ⟨⟨3⟩, ()⟩) ∧
      (∃ rules, Predicate.defaultRules = .ok rules ∧
        simplify (Predicate.setting one rules) (.isNull ⟨3⟩ sum) ⟨⟨4⟩, ()⟩ =
          simplify (Predicate.setting other rules) (.isNull ⟨3⟩ sum) ⟨⟨4⟩, ()⟩) ∧
      (∃ rules, Predicate.normalizationRules = .ok rules ∧
        optimize (Predicate.setting one rules) {} (.not ⟨4⟩ (.isNull ⟨3⟩ sum)) ⟨⟨5⟩, ()⟩ =
          optimize (Predicate.setting other rules) {} (.not ⟨4⟩ (.isNull ⟨3⟩ sum)) ⟨⟨5⟩, ()⟩) := by
  intro one other sum
  have agree : one.AgreesOnConstants other := by
    refine ⟨rfl, fun symbol constant => ?_⟩
    have same : compare (⟨"p"⟩ : Alias) symbol = .eq := by simpa [one, AliasSet.of] using constant
    obtain rfl := Std.LawfulEqOrd.eq_of_compare same
    simp [one, other, Parameters.get?_bind]
  have different : one.parameters.get? ⟨"q"⟩ ≠ other.parameters.get? ⟨"q"⟩ := by decide
  obtain ⟨⟨scalarRules, scalarSet, scalars⟩, ⟨predicateRules, predicateSet, predicates⟩, normalRules, normalSet,
    optimized⟩ := outcomes_depend_on_constants_alone agree {}
  exact ⟨agree, different, ⟨_, scalarSet, scalars _ _⟩, ⟨_, predicateSet, predicates _ _⟩,
    ⟨_, normalSet, optimized _ _⟩⟩

end QueryOptimizer
