import QueryOptimizer.Proofs.Predicate.Contract
import QueryOptimizer.Proofs.Predicate.Exploration
import QueryOptimizer.Proofs.Simplification.Meaning

/-!
Soundness of the default rule sets and of normalization: whatever they make of an expression has the value that
the expression has, under every row and all parameters that the returned constraint holds for.
-/
namespace QueryOptimizer

/-- The predicate is made of nodes that can exist side by side, its scalars included. -/
def Predicate.WellFormed (predicate : Predicate) (supply : Supply) : Prop :=
  Settled {node | node ∈ Tree.postOrder predicate} supply

/-- Predicates whose scalars have distinct identities that were handed out, as the predicates have themselves, are
well-formed. -/
theorem Predicate.WellFormed.of_nodup {predicate : Predicate} {supply : Supply}
    (formed : QueryOptimizer.WellFormed predicate supply)
    (allocated : ∀ scalar ∈ ((Tree.postOrder predicate).flatMap Predicate.scalars).flatMap Tree.postOrder,
      scalar.identity.index < supply.allocated)
    (distinct : ((((Tree.postOrder predicate).flatMap Predicate.scalars).flatMap Tree.postOrder).map
      Scalar.identity).Nodup) :
    predicate.WellFormed supply := by
  have among : ∀ scalar ∈ scalarNodes {node | node ∈ Tree.postOrder predicate},
      scalar ∈ ((Tree.postOrder predicate).flatMap Predicate.scalars).flatMap Tree.postOrder := by
    rintro scalar ⟨node, present, root, about, within⟩
    exact List.mem_flatMap.mpr ⟨root, List.mem_flatMap.mpr ⟨node, present, about⟩, within⟩
  exact ⟨formed, fun scalar member => allocated scalar (among scalar member),
    fun one first other second same => List.inj_on_of_nodup_map distinct (among one first) (among other second) same,
    scalarNodes_closed _⟩

/-- A new null test of a well-formed scalar is well-formed. -/
theorem Predicate.WellFormed.isNull {scalar : Scalar} {supply : Supply}
    (formed : QueryOptimizer.WellFormed scalar supply) :
    (Predicate.isNull supply.draw.1 scalar).WellFormed supply.draw.2 := by
  refine ⟨WellFormed.leaf rfl (Nat.lt_succ_self _), (formed.mono (Nat.le_succ _)).restrict ?_ (scalarNodes_closed _)⟩
  rintro inner ⟨node, present, root, about, within⟩
  obtain rfl := (Tree.mem_postOrder_of_leaf rfl).mp present
  exact List.mem_singleton.mp about ▸ within

/-- A new negation of a well-formed predicate is well-formed. -/
theorem Predicate.WellFormed.not {operand : Predicate} {supply : Supply} (formed : operand.WellFormed supply) :
    (Predicate.not supply.draw.1 operand).WellFormed supply.draw.2 := by
  refine ⟨QueryOptimizer.WellFormed.parent formed.arena (fun _ => List.mem_singleton) rfl,
    (formed.scalars.mono (Nat.le_succ _)).restrict ?_ (scalarNodes_closed _)⟩
  rintro inner ⟨node, present, root, about, within⟩
  rcases Tree.mem_postOrder.mp present with rfl | ⟨child, below, further⟩
  · cases about
  · exact ⟨node, List.mem_singleton.mp below ▸ further, root, about, within⟩

/-- The rules make a set, simplification with it returns, and under the returned constraint the result
has the value of the original wherever that has one. -/
def SimplifiesSoundly {ν ω β : Type} [Tree ν ω] [DecidableEq ω] {σ : Type}
    (rules : Except Error (RuleSet ν ω (Call ν → RuleM σ (Response ν))))
    (setting : RuleSet ν ω (Call ν → RuleM σ (Response ν)) → Setting ν ω (Call ν → RuleM σ (Response ν)))
    (eval : Valuation → ν → Option β) (root : ν) (session : Session σ) : Prop :=
  ∃ set simplified after, rules = .ok set ∧ simplify (setting set) root session = .ok simplified after ∧
    ∀ valuation, simplified.constraint.Holds valuation.parameters →
      ∀ value, eval valuation root = some value → eval valuation simplified.value = some value

/-- Both default rule sets are sound, for expressions of every shape and with any sharing of nodes, in
every environment. -/
theorem defaultRules_preserve_values (environment : Environment) :
    (∀ (scalar : Scalar) (session : Session Unit), WellFormed scalar session.supply →
      SimplifiesSoundly Scalar.defaultRules (Scalar.setting environment) Scalar.eval scalar session) ∧
    (∀ (predicate : Predicate) (session : Session Unit), predicate.WellFormed session.supply →
      SimplifiesSoundly Predicate.defaultRules (Predicate.setting environment) Predicate.eval predicate
        session) := by
  constructor
  · intro scalar session formed
    have run := Scalar.simplify_refines environment session formed (Tree.root_mem_postOrder scalar)
    obtain ⟨simplified, after, returned, _, -, -, -, refines⟩ := run.returned
    exact ⟨_, simplified, after, Scalar.defaultRules_eq, returned, refines⟩
  · intro predicate session formed
    have run := Predicate.simplify_refines environment formed (Tree.root_mem_postOrder predicate)
    obtain ⟨simplified, after, returned, _, -, -, -, refines⟩ := run.returned
    exact ⟨_, simplified, after, Predicate.defaultRules_eq, returned, refines⟩

/-- Two parameters that are constant for the execution. A field of a record takes over the condition of the component
that it selects, where a sum with zero was folded, and drops that of the other one; so does a conjunction that one of
its operands decides. -/
theorem defaultRules_preserve_constant_parameter :
    let environment : Environment :=
      { parameters := (Parameters.empty.bind ⟨"p"⟩ (.int 5)).bind ⟨"q"⟩ .null
        constants := (AliasSet.of ⟨"p"⟩).insert ⟨"q"⟩ }
    let sum : Scalar := .call ⟨2⟩ .add [.parameter ⟨0⟩ ⟨"p"⟩, .literal ⟨1⟩ (.int 0)]
    let component : Scalar := .call ⟨5⟩ (.field 0) [.call ⟨4⟩ .record [sum, .parameter ⟨3⟩ ⟨"q"⟩]]
    let tests : Predicate := .and ⟨4⟩ [.isNull ⟨2⟩ (.parameter ⟨0⟩ ⟨"p"⟩), .isNull ⟨3⟩ (.parameter ⟨1⟩ ⟨"q"⟩)]
    WellFormed component ⟨6⟩ ∧ tests.WellFormed ⟨5⟩ ∧
      SimplifiesSoundly Scalar.defaultRules (Scalar.setting environment) Scalar.eval component ⟨⟨6⟩, ()⟩ ∧
      SimplifiesSoundly Predicate.defaultRules (Predicate.setting environment) Predicate.eval tests ⟨⟨5⟩, ()⟩ ∧
      (∃ simplified after, simplify (Scalar.setting environment ⟨Scalar.allRules⟩) component ⟨⟨6⟩, ()⟩ =
        .ok simplified after ∧ simplified.value.agrees (.literal ⟨0⟩ (.int 5)) = true ∧
          simplified.constraint = .of (.equals ⟨"p"⟩ (.int 5))) ∧
      ∃ simplified after, simplify (Predicate.setting environment ⟨Predicate.simplifyingRules⟩) tests ⟨⟨5⟩, ()⟩ =
        .ok simplified after ∧ simplified.value.agrees (.constant ⟨0⟩ .fails) = true ∧
          simplified.constraint = .of (.isNotNull ⟨"p"⟩) := by
  intro environment sum component tests
  have componentFormed : WellFormed component ⟨6⟩ := .of_nodup (by decide +kernel) (by decide +kernel)
  have testsFormed : tests.WellFormed ⟨5⟩ :=
    .of_nodup (.of_nodup (by decide +kernel) (by decide +kernel)) (by decide +kernel) (by decide +kernel)
  have selected : Returns (simplify (Scalar.setting environment ⟨Scalar.allRules⟩) component) ⟨⟨6⟩, ()⟩
      fun simplified _ => simplified.value.agrees (.literal ⟨0⟩ (.int 5)) = true ∧
        simplified.constraint = .of (.equals ⟨"p"⟩ (.int 5)) := by
    decide +kernel
  have decided : Returns (simplify (Predicate.setting environment ⟨Predicate.simplifyingRules⟩) tests) ⟨⟨5⟩, ()⟩
      fun simplified _ => simplified.value.agrees (.constant ⟨0⟩ .fails) = true ∧
        simplified.constraint = .of (.isNotNull ⟨"p"⟩) := by
    decide +kernel
  exact ⟨componentFormed, testsFormed,
    (defaultRules_preserve_values environment).1 component ⟨⟨6⟩, ()⟩ componentFormed,
    (defaultRules_preserve_values environment).2 tests ⟨⟨5⟩, ()⟩ testsFormed, selected.returned, decided.returned⟩

namespace Predicate
variable (environment : Environment)

/-- Every call of a rule of the normalizing set leaves a node in place, or replaces it by one that stands for the same
position, whether that is to be explored again or not. -/
theorem normalizing_upholds (meaning : Valuation → Option Truth) :
    Conduct (normalizing environment) (Tracked Settled) (StandsIn interpretation meaning)
      (StandsIn interpretation meaning) fun _ (_ : Ledger Predicate Unit) => True := by
  refine ⟨fun _ _ _ extended held => held.mono extended, ?_⟩
  rintro world ledger root current fit ⟨present, stands⟩ application member
  have recorded := fit.constraints ▸ stands
  refine (callRule_normalizing environment ledger root current member).partly.imp ?_
  rintro yielded? after (⟨session, rfl, rfl, more⟩ | ⟨node, constraint, session, rfl, ⟨rfl, step⟩ | ⟨rfl, pushes⟩⟩)
  · exact ⟨world, le_refl _, ⟨settled_habitat.later _ _ _ fit.settles more, fit.constraints, fit.keyed⟩, nofun⟩
  · obtain ⟨later, extended, fitted, held⟩ := fit.yielded (Set.subset_insert _ _) (step.settles fit.settles present)
      (Set.mem_insert _ _) (step.stands fit.settles present recorded)
    refine ⟨later, extended, fitted, ?_⟩
    rintro yielded ⟨⟩ -
    exact ⟨held, step.lighter⟩
  · obtain ⟨wider, included, settles, joined⟩ := pushes.settles fit.settles present
    obtain ⟨later, extended, fitted, held⟩ := fit.yielded included settles joined (pushes.stands recorded)
    refine ⟨later, extended, fitted, ?_⟩
    rintro yielded ⟨⟩ -
    exact held

/-- Normalization is sound within all limits, and returns within those that suffice for the predicate. -/
theorem normalization_preserves_values (limits : Limits) (predicate : Predicate) (session : Session Unit)
    (formed : predicate.WellFormed session.supply) :
    ∃ rules, normalizationRules = .ok rules ∧
      (1 ≤ limits.reExplorations → predicate.height ≤ limits.recursion →
        ∃ optimized after, optimize (setting environment rules) limits predicate session = .ok optimized after) ∧
      ∀ optimized after, optimize (setting environment rules) limits predicate session = .ok optimized after →
        ∀ valuation, optimized.constraint.Holds valuation.parameters →
          ∀ truth, predicate.eval valuation = some truth → optimized.value.eval valuation = some truth := by
  refine ⟨_, normalizationRules_eq, fun enough low =>
    optimize_returns environment limits predicate session enough formed.arena low, ?_⟩
  intro optimized after returned
  have run := optimize_refines settled_habitat (normalizing_upholds environment) limits formed
    (Tree.root_mem_postOrder predicate)
  obtain ⟨_, -, -, -, refines⟩ := run.at_ok returned
  exact refines

end Predicate
end QueryOptimizer
