import QueryOptimizer.Proofs.Predicate.Confinement

/-!
The constraints of the default rewrites are true of the parameters that they were derived from, and neither
a constraint nor a rewritten expression mentions anything new.
-/
namespace QueryOptimizer

/-- What a rewritten expression may mention and depend on, where the original refers to `aliases`. -/
structure StaysWithin {ν : Type} (environment : Environment) (correlatedTo : ν → AliasSet) (aliases : AliasSet)
    (rewritten : Constrained ν) : Prop where
  /-- Every condition is a null test or an equality of a constant parameter that the original refers to, and
  it is true of the value that the parameter is bound to. -/
  conditions : ∀ condition ∈ rewritten.constraint.conditions, ∃ symbol,
    (condition = .isNull symbol ∨ condition = .isNotNull symbol ∨ ∃ value, condition = .equals symbol value) ∧
      symbol ∈ environment.constants ∧ symbol ∈ aliases ∧
        (∃ value, environment.parameters.get? symbol = some value) ∧ condition.Holds environment.parameters
  correlations : ∀ symbol ∈ correlatedTo rewritten.value, symbol ∈ aliases
  /-- If no parameter counts as constant, then the result is valid unconditionally. -/
  unconditional : environment.constants = ∅ → rewritten.constraint = .none

theorem Condition.eq_of_parameter? {condition : Condition} {symbol : Alias}
    (about : condition.parameter? = some symbol) :
    condition = .isNull symbol ∨ condition = .isNotNull symbol ∨ ∃ value, condition = .equals symbol value := by
  cases condition with
  | isNull parameter =>
    obtain rfl := Option.some.inj about
    exact .inl rfl
  | isNotNull parameter =>
    obtain rfl := Option.some.inj about
    exact .inr (.inl rfl)
  | equals parameter value =>
    obtain rfl := Option.some.inj about
    exact .inr (.inr ⟨value, rfl⟩)
  | custom description => cases about

theorem StaysWithin.of {ν : Type} {environment : Environment} {correlatedTo : ν → AliasSet} {aliases : AliasSet}
    {rewritten : Constrained ν} (refers : ∀ symbol ∈ correlatedTo rewritten.value, symbol ∈ aliases)
    (derived : ∀ condition ∈ rewritten.constraint.conditions, condition.DerivedIn environment aliases) :
    StaysWithin environment correlatedTo aliases rewritten where
  conditions condition member :=
    let ⟨symbol, value, about, among, constant, bound, holds⟩ := derived condition member
    ⟨symbol, Condition.eq_of_parameter? about, constant, among, ⟨value, bound⟩, holds⟩
  correlations := refers
  unconditional noConstants := by
    refine Constraint.ext_mem fun condition => iff_of_false (fun member => ?_) Constraint.not_mem_none
    obtain ⟨symbol, _, _, _, constant, _⟩ := derived condition member
    rw [noConstants] at constant
    exact Std.ExtTreeSet.not_mem_empty constant

/-- Simplification of scalars and of predicates with the default rules always returns, and whatever it
returns stays within what the original refers to; so does whatever optimization with the normalizing rules
returns. -/
theorem default_rewrites_stay_within (environment : Environment) :
    (∀ (scalar : Scalar) (session : Session Unit),
      ∃ rules simplified after, Scalar.defaultRules = .ok rules ∧
        simplify (Scalar.setting environment rules) scalar session = .ok simplified after ∧
          StaysWithin environment Scalar.correlatedTo scalar.correlatedTo simplified) ∧
    (∀ (predicate : Predicate) (session : Session Unit),
      ∃ rules simplified after, Predicate.defaultRules = .ok rules ∧
        simplify (Predicate.setting environment rules) predicate session = .ok simplified after ∧
          StaysWithin environment Predicate.correlatedTo predicate.correlatedTo simplified) ∧
    (∀ (predicate : Predicate) (limits : Limits) (session : Session Unit),
      ∃ rules, Predicate.normalizationRules = .ok rules ∧
        ∀ optimized after,
          optimize (Predicate.setting environment rules) limits predicate session = .ok optimized after →
            StaysWithin environment Predicate.correlatedTo predicate.correlatedTo optimized) := by
  refine ⟨?_, ?_, ?_⟩
  · intro scalar session
    obtain ⟨simplified, after, found, -⟩ := (Scalar.simplify_lightened environment scalar session).returned
    obtain ⟨refers, derived⟩ := (Scalar.simplify_confined environment scalar session).at_ok found
    exact ⟨_, simplified, after, Scalar.defaultRules_eq, found, .of refers derived⟩
  · intro predicate session
    obtain ⟨simplified, after, found, -⟩ := (Predicate.simplify_lightened environment predicate session).returned
    have confines := Predicate.confines environment predicate.correlatedTo
      fun _ member => Predicate.mem_allRules.mpr (.inl member)
    obtain ⟨refers, derived⟩ := (confines.simplify fun _ present => present).at_ok found
    exact ⟨_, simplified, after, Predicate.defaultRules_eq, found, .of refers derived⟩
  · intro predicate limits session
    refine ⟨_, Predicate.normalizationRules_eq, fun optimized after found => ?_⟩
    have confines := Predicate.confines environment predicate.correlatedTo fun _ member => member
    obtain ⟨refers, derived⟩ := (confines.optimize limits fun _ present => present).at_ok found
    exact .of refers derived

/-- A negated null test of a parameter that is constant for the execution, which optimization decides under
the assumption that the parameter stays other than null. -/
theorem default_rewrites_stay_within_negated_null_test :
    let environment : Environment := { parameters := .bind .empty ⟨"p"⟩ (.int 5), constants := .of ⟨"p"⟩ }
    let predicate : Predicate := .not ⟨2⟩ (.isNull ⟨1⟩ (.parameter ⟨0⟩ ⟨"p"⟩))
    ∃ rules constraint, Predicate.normalizationRules = .ok rules ∧
      optimize (Predicate.setting environment rules) {} predicate ⟨⟨3⟩, ()⟩ =
        .ok ⟨.constant ⟨5⟩ .holds, constraint⟩ ⟨⟨6⟩, ()⟩ ∧
      .isNotNull ⟨"p"⟩ ∈ constraint.conditions ∧
      StaysWithin environment Predicate.correlatedTo predicate.correlatedTo ⟨.constant ⟨5⟩ .holds, constraint⟩ := by
  intro environment predicate
  obtain ⟨rules, isSet, within⟩ := (default_rewrites_stay_within environment).2.2 predicate {} ⟨⟨3⟩, ()⟩
  obtain rfl := Except.ok.inj (isSet.symm.trans Predicate.normalizationRules_eq)
  have ran : ∃ constraints,
      optimize (Predicate.setting environment ⟨Predicate.allRules ⟨Scalar.allRules⟩⟩) {} predicate ⟨⟨3⟩, ()⟩ =
        .ok ⟨.constant ⟨5⟩ .holds, collectConstraints constraints (Predicate.constant ⟨5⟩ .holds)⟩ ⟨⟨6⟩, ()⟩ ∧
      .isNotNull ⟨"p"⟩ ∈ (constraints.recorded (Predicate.constant ⟨5⟩ .holds)).conditions := ⟨_, rfl, by decide⟩
  obtain ⟨constraints, found, recorded⟩ := ran
  have collected := mem_collectConstraints.mpr ⟨_, Tree.root_mem_postOrder _, recorded⟩
  exact ⟨_, _, isSet, found, collected, within _ _ found⟩

end QueryOptimizer
