import QueryOptimizer.Proofs.Predicate.Contract
import QueryOptimizer.Proofs.Soundness

/-!
The default rule sets always simplify an expression, and never simplify one again that they have simplified.
-/
namespace QueryOptimizer

/-- The rules make a set, simplification with it returns, and whenever the result is simplified again, it
is returned as that very node, without any constraint. -/
def SimplifiesForGood {ν ω : Type} [Tree ν ω] [DecidableEq ω] {σ : Type}
    (rules : Except Error (RuleSet ν ω (Call ν → RuleM σ (Response ν))))
    (setting : RuleSet ν ω (Call ν → RuleM σ (Response ν)) → Setting ν ω (Call ν → RuleM σ (Response ν)))
    (root : ν) (session : Session σ) : Prop :=
  ∃ set simplified after, rules = .ok set ∧ simplify (setting set) root session = .ok simplified after ∧
    ∀ later : Session σ, after.supply.allocated ≤ later.supply.allocated →
      ∃ final, simplify (setting set) simplified.value later = .ok ⟨simplified.value, .none⟩ final

theorem Scalar.simplifies_for_good (environment : Environment) {scalar : Scalar} {session : Session Unit}
    (formed : WellFormed scalar session.supply) :
    SimplifiesForGood defaultRules (setting environment) scalar session := by
  obtain ⟨simplified, after, found, ⟨wider, -, settles, known⟩, rests, -⟩ :=
    (simplify_settled environment formed (Tree.root_mem_postOrder scalar)).returned
  refine ⟨_, simplified, after, defaultRules_eq, found, ?_⟩
  intro later more
  obtain ⟨_, final, again, rfl, -⟩ := (simplify_of_rests arena_habitat (allRules_replace environment) rests
    (settles.mono more) known).returned
  exact ⟨final, again⟩

theorem Predicate.simplifies_for_good (environment : Environment) {predicate : Predicate} {session : Session Unit}
    (formed : predicate.WellFormed session.supply) :
    SimplifiesForGood defaultRules (setting environment) predicate session := by
  obtain ⟨simplified, after, found, -⟩ := (simplify_lightened environment predicate session).returned
  have present := Tree.root_mem_postOrder predicate
  have existing := simplifyingRules_yieldExisting environment
  have contextFree := simplifyingRules_contextFree environment
  have replacing := simplifyingRules_replace environment
  have leadsDown : ∀ rule ∈ simplifyingRules, LeadsDown SettledIn environment rule ∅ Set.univ :=
    fun rule member => (simplifyingRules_honest environment rule member).leadsDown
  obtain ⟨wider, -, settles, known, -⟩ :=
    (simplify_settles settledIn_habitat existing contextFree leadsDown formed present).at_ok found
  refine ⟨_, simplified, after, defaultRules_eq, found, ?_⟩
  intro later more
  exact simplify_idempotent settledIn_habitat existing contextFree leadsDown replacing formed present found
    (settled_habitat.later wider _ _ settles more) known

/-- With both default rule sets, simplification returns for expressions of every shape, with any sharing of
nodes and in every environment, and leaves what it has returned as it is from then on. -/
theorem defaultRules_simplify_for_good (environment : Environment) :
    (∀ (scalar : Scalar) (session : Session Unit), WellFormed scalar session.supply →
      SimplifiesForGood Scalar.defaultRules (Scalar.setting environment) scalar session) ∧
    (∀ (predicate : Predicate) (session : Session Unit), predicate.WellFormed session.supply →
      SimplifiesForGood Predicate.defaultRules (Predicate.setting environment) predicate session) :=
  ⟨fun _ _ formed => Scalar.simplifies_for_good environment formed,
    fun _ _ formed => Predicate.simplifies_for_good environment formed⟩

/-- A sum of a single parameter that is constant for the execution, and a negated null test of it. -/
theorem defaultRules_simplify_sum_of_parameter_for_good :
    WellFormed (Scalar.call ⟨1⟩ .add [.parameter ⟨0⟩ ⟨"p"⟩]) ⟨2⟩ ∧
      (Predicate.not ⟨3⟩ (.isNull ⟨2⟩ (.call ⟨1⟩ .add [.parameter ⟨0⟩ ⟨"p"⟩]))).WellFormed ⟨4⟩ ∧
      SimplifiesForGood Scalar.defaultRules
        (Scalar.setting { parameters := .bind .empty ⟨"p"⟩ (.int 5), constants := .of ⟨"p"⟩ })
        (.call ⟨1⟩ .add [.parameter ⟨0⟩ ⟨"p"⟩]) ⟨⟨2⟩, ()⟩ ∧
      SimplifiesForGood Predicate.defaultRules
        (Predicate.setting { parameters := .bind .empty ⟨"p"⟩ (.int 5), constants := .of ⟨"p"⟩ })
        (.not ⟨3⟩ (.isNull ⟨2⟩ (.call ⟨1⟩ .add [.parameter ⟨0⟩ ⟨"p"⟩]))) ⟨⟨4⟩, ()⟩ := by
  have parameterFormed : WellFormed (Scalar.parameter ⟨0⟩ ⟨"p"⟩) ⟨1⟩ := .leaf rfl Nat.zero_lt_one
  have sumFormed : WellFormed (Scalar.call ⟨1⟩ .add [.parameter ⟨0⟩ ⟨"p"⟩]) ⟨2⟩ := 
    parameterFormed.parent (fun _ => List.mem_singleton) rfl
  have testFormed : WellFormed (Predicate.isNull ⟨2⟩ (.call ⟨1⟩ .add [.parameter ⟨0⟩ ⟨"p"⟩])) ⟨3⟩ :=
    .leaf rfl (Nat.lt_succ_self 2)
  have negationFormed : (Predicate.not ⟨3⟩ (.isNull ⟨2⟩ (.call ⟨1⟩ .add [.parameter ⟨0⟩ ⟨"p"⟩]))).WellFormed ⟨4⟩ := by
    refine ⟨testFormed.parent (fun _ => List.mem_singleton) rfl, (sumFormed.mono (Nat.le_add_right 2 2)).restrict ?_
      (Predicate.scalarNodes_closed _)⟩
    intro scalar member
    obtain ⟨node, present, root, about, within⟩ := member
    rcases Tree.mem_postOrder.mp present with rfl | ⟨child, below, inner⟩
    · cases about
    · obtain rfl := List.mem_singleton.mp below
      obtain rfl := (Tree.mem_postOrder_of_leaf rfl).mp inner
      exact List.mem_singleton.mp about ▸ within
  exact ⟨sumFormed, negationFormed,
    (defaultRules_simplify_for_good _).1 (.call ⟨1⟩ .add [.parameter ⟨0⟩ ⟨"p"⟩]) ⟨⟨2⟩, ()⟩ sumFormed,
    (defaultRules_simplify_for_good _).2 (.not ⟨3⟩ (.isNull ⟨2⟩ (.call ⟨1⟩ .add [.parameter ⟨0⟩ ⟨"p"⟩]))) ⟨⟨4⟩, ()⟩
      negationFormed⟩

end QueryOptimizer
