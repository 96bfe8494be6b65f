import QueryOptimizer.Proofs.Scalar.Step
import QueryOptimizer.Proofs.Semantics
import QueryOptimizer.Proofs.Simplification.Confinement

/-!
Simplified scalars refer to nothing new, and they depend on true assumptions about parameters that the
original refers to.
-/
namespace QueryOptimizer

/-- The parameter that a condition is about; a custom one is about none. -/
def Condition.parameter? : Condition → Option Alias
  | isNull parameter | isNotNull parameter => some parameter
  | equals parameter _ => some parameter
  | custom _ => none

/-- The condition is about a parameter among `aliases` that is constant for the execution, and it is true
of the value that the parameter is bound to. -/
def Condition.DerivedIn (environment : Environment) (aliases : AliasSet) (condition : Condition) : Prop :=
  ∃ symbol value, condition.parameter? = some symbol ∧ symbol ∈ aliases ∧ symbol ∈ environment.constants ∧
    environment.parameters.get? symbol = some value ∧ condition.Holds environment.parameters

theorem Condition.DerivedIn.widen {environment : Environment} {aliases wider : AliasSet} {condition : Condition}
    (derived : condition.DerivedIn environment aliases) (included : ∀ symbol ∈ aliases, symbol ∈ wider) :
    condition.DerivedIn environment wider :=
  let ⟨symbol, value, about, among, rest⟩ := derived
  ⟨symbol, value, about, included symbol among, rest⟩

namespace Scalar
variable {aliases : AliasSet} {environment : Environment}

theorem mem_correlatedToEach {scalars : List Scalar} {symbol : Alias} :
    symbol ∈ correlatedToEach scalars ↔ ∃ scalar ∈ scalars, symbol ∈ scalar.correlatedTo := by
  induction scalars with
  | nil => simp [correlatedToEach]
  | cons scalar rest ih => simp [correlatedToEach, Std.ExtTreeSet.mem_union_iff, ih]

/-- All that the scalar refers to is among the aliases. -/
def RefersOnlyTo (aliases : AliasSet) (scalar : Scalar) : Prop :=
  ∀ symbol ∈ scalar.correlatedTo, symbol ∈ aliases

theorem correlatedToEach_within {scalars : List Scalar} {simplified : List (Constrained Scalar)}
    (within : List.Forall₂ (fun scalar result => RefersOnlyTo (correlatedTo scalar) result.value) scalars simplified) :
    ∀ symbol ∈ correlatedToEach (simplified.map Constrained.value), symbol ∈ correlatedToEach scalars := by
  induction within with
  | nil => exact fun _ present => present
  | cons first _ ih =>
    intro symbol present
    refine Std.ExtTreeSet.mem_union_iff.mpr ?_
    exact (Std.ExtTreeSet.mem_union_iff.mp present).imp (first symbol) (ih symbol)

theorem refersOnlyTo_literal (id : NodeId) (value : Literal) : RefersOnlyTo aliases (.literal id value) := by
  simp [RefersOnlyTo, correlatedTo]

theorem refersOnlyTo_call {id : NodeId} {function : ScalarFunction} {arguments : List Scalar} :
    RefersOnlyTo aliases (.call id function arguments) ↔ ∀ argument ∈ arguments, RefersOnlyTo aliases argument := by
  simp only [RefersOnlyTo, correlatedTo, mem_correlatedToEach]
  constructor
  · intro within argument member symbol present
    exact within symbol ⟨argument, member, present⟩
  · intro each symbol present
    obtain ⟨argument, member, present⟩ := present
    exact each argument member symbol present

theorem RefersOnlyTo.child {scalar child : Scalar} (within : RefersOnlyTo aliases scalar)
    (member : child ∈ scalar.children) : RefersOnlyTo aliases child := by
  cases scalar with
  | call => exact refersOnlyTo_call.mp within child member
  | literal | column | parameter => cases member

theorem RefersOnlyTo.copyOver {scalar : Scalar} (within : RefersOnlyTo aliases scalar) {mapped : List Scalar}
    (id : NodeId) (below : ∀ child ∈ mapped, RefersOnlyTo aliases child) :
    RefersOnlyTo aliases (scalar.copyOver mapped id) := by
  cases scalar with
  | call => exact refersOnlyTo_call.mpr below
  | literal | column | parameter => exact within

/-- A replacement refers to nothing that the replaced scalar does not refer to. -/
theorem Step.refersOnlyTo {constraints : Table Scalar Constraint} {supply later : Supply}
    {current node : Scalar} {constraint : Constraint}
    (step : Step environment constraints supply current node constraint later)
    (within : RefersOnlyTo aliases current) : RefersOnlyTo aliases node := by
  cases step with
  | inlined | foldedUnary | foldedBinary => exact refersOnlyTo_literal _ _
  | selected found =>
    exact (within.child (List.mem_singleton_self _)).child (List.mem_of_getElem? found)
  | rightDropped => exact within.child (List.mem_cons_self ..)
  | leftDropped => exact within.child (by simp [children])

/-- The conditions that a rule may add of its own at a node. -/
abbrev Origin (environment : Environment) (scalar : Scalar) (condition : Condition) : Prop :=
  condition.DerivedIn environment scalar.correlatedTo

theorem inlineConstantParameter_attaching :
    Attaching environment (Origin environment) inlineConstantParameter := by
  intro call session same
  subst same
  dsimp only [inlineConstantParameter]
  split
  · rename_i id symbol isParameter
    split
    · exact .pure .nothing
    · rename_i constant
      split
      · rename_i value found
        refine .bind (.of_eq rfl (.pure (.only ?_)))
        intro condition member
        rw [Constraint.mem_of] at member
        have holds : condition.parameter? = some symbol ∧ condition.Holds call.environment.parameters := by
          subst member
          cases value <;> simp [Literal.isNull, Condition.parameter?, Condition.Holds, found]
        have refers : symbol ∈ call.current.correlatedTo := by
          simp [isParameter, correlatedTo, AliasSet.of]
        exact .inr ⟨symbol, value, holds.1, refers, by simpa using constant, found, holds.2⟩
      · exact .pure .nothing
  · exact .pure .nothing

theorem composeFieldOverRecord_attaching :
    Attaching environment (Origin environment) composeFieldOverRecord := by
  intro call session _
  dsimp only [composeFieldOverRecord]
  split
  · refine Call.whenReturns_get fun record => ?_
    split
    · exact .pure (.carried [record])
    · exact .pure .nothing
  · exact .pure .nothing

theorem foldUnaryLiteral_attaching : Attaching environment (Origin environment) foldUnaryLiteral := by
  intro call session _
  dsimp only [foldUnaryLiteral]
  split
  · rename_i argument _
    split
    · exact .bind (.of_eq rfl (.pure (.carried [argument])))
    · exact .pure .nothing
  · exact .pure .nothing

theorem foldBinaryLiterals_attaching : Attaching environment (Origin environment) foldBinaryLiterals := by
  intro call session _
  dsimp only [foldBinaryLiterals]
  split
  · rename_i left right _
    split
    · split
      · split
        · exact .bind (.of_eq rfl (.pure (.carried [left, right])))
        · exact .pure .nothing
      · exact .pure .nothing
    · exact .pure .nothing
  · exact .pure .nothing

theorem eliminateArithmeticIdentity_attaching :
    Attaching environment (Origin environment) eliminateArithmeticIdentity := by
  intro call session _
  dsimp only [eliminateArithmeticIdentity]
  split
  · rename_i dropped _
    exact .pure (.carried [dropped])
  · exact .pure .nothing

theorem attaching_of_mem_allRules {rule : ScalarRule} (member : rule ∈ allRules) :
    Attaching environment (Origin environment) rule := by
  simp only [allRules, List.mem_cons, List.not_mem_nil, or_false] at member
  rcases member with rfl | rfl | rfl | rfl | rfl
  · exact inlineConstantParameter_attaching
  · exact composeFieldOverRecord_attaching
  · exact foldUnaryLiteral_attaching
  · exact foldBinaryLiterals_attaching
  · exact eliminateArithmeticIdentity_attaching

theorem confines (environment : Environment) (aliases : AliasSet) :
    Confines (setting environment ⟨allRules⟩) (RefersOnlyTo aliases) (·.DerivedIn environment aliases) where
  children _ within _ member := within.child member
  copies _ _ id within below := within.copyOver id below
  rules _ _ same within records _ isRule matched :=
    (isStep_of_mem_allRules environment isRule).confined (fun _ _ _ _ _ _ step => step.refersOnlyTo)
      (attaching_of_mem_allRules isRule) (fun _ _ within derived => derived.widen within)
      same within records matched

/-- What simplification makes of a scalar refers to nothing new, and all conditions are derived from what
the scalar refers to. -/
theorem simplify_confined (environment : Environment) (scalar : Scalar) (session : Session Unit) :
    WhenReturns (simplify (setting environment ⟨allRules⟩) scalar) session fun simplified _ =>
      RefersOnlyTo scalar.correlatedTo simplified.value ∧
        ∀ condition ∈ simplified.constraint.conditions, condition.DerivedIn environment scalar.correlatedTo :=
  (confines environment scalar.correlatedTo).simplify fun _ present => present

end Scalar
end QueryOptimizer
