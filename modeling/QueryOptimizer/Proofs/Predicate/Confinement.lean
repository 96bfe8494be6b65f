import QueryOptimizer.Proofs.Predicate.NormalForm
import QueryOptimizer.Proofs.Scalar.Confinement

/-!
Simplified and normalized predicates refer to nothing new, and they depend on true assumptions about
parameters that the original refers to. What simplification of their scalars assumes is among that.
-/
namespace QueryOptimizer.Predicate
variable {aliases : AliasSet} {environment : Environment}

theorem mem_correlatedToEach {predicates : List Predicate} {symbol : Alias} :
    symbol ∈ correlatedToEach predicates ↔ ∃ predicate ∈ predicates, symbol ∈ predicate.correlatedTo := by
  induction predicates with
  | nil => simp [correlatedToEach]
  | cons predicate rest ih => simp [correlatedToEach, Std.ExtTreeSet.mem_union_iff, ih]

/-- All that the predicate refers to is among the aliases. -/
def RefersOnlyTo (aliases : AliasSet) (predicate : Predicate) : Prop :=
  ∀ symbol ∈ predicate.correlatedTo, symbol ∈ aliases

theorem correlatedToEach_within {predicates : List Predicate} {simplified : List (Constrained Predicate)}
    (within : List.Forall₂ (fun predicate result => RefersOnlyTo (correlatedTo predicate) result.value) predicates
      simplified) :
    ∀ symbol ∈ correlatedToEach (simplified.map Constrained.value), symbol ∈ correlatedToEach predicates := by
  induction within with
  | nil => exact fun _ present => present
  | cons first _ ih =>
    intro symbol present
    refine Std.ExtTreeSet.mem_union_iff.mpr ?_
    exact (Std.ExtTreeSet.mem_union_iff.mp present).imp (first symbol) (ih symbol)

theorem refersOnlyTo_constant (id : NodeId) (truth : Truth) : RefersOnlyTo aliases (.constant id truth) := by
  simp [RefersOnlyTo, correlatedTo]

theorem refersOnlyTo_connective (kind : PredicateKind) {id : NodeId} {operands : List Predicate} :
    RefersOnlyTo aliases (connective kind id operands) ↔ ∀ operand ∈ operands, RefersOnlyTo aliases operand := by
  have joined : (connective kind id operands).correlatedTo = correlatedToEach operands := by
    cases kind <;> rfl
  simp only [RefersOnlyTo, joined, mem_correlatedToEach]
  constructor
  · intro within operand member symbol present
    exact within symbol ⟨operand, member, present⟩
  · intro each symbol present
    obtain ⟨operand, member, present⟩ := present
    exact each operand member symbol present

theorem refersOnlyTo_compare {id : NodeId} {comparison : Comparison} {left right : Scalar} :
    RefersOnlyTo aliases (.compare id comparison left right) ↔
      left.RefersOnlyTo aliases ∧ right.RefersOnlyTo aliases := by
  simp only [RefersOnlyTo, Scalar.RefersOnlyTo, correlatedTo, Std.ExtTreeSet.mem_union_iff, or_imp, forall_and]

theorem RefersOnlyTo.child {predicate child : Predicate} (within : RefersOnlyTo aliases predicate)
    (member : child ∈ predicate.children) : RefersOnlyTo aliases child := by
  cases predicate with
  | and id operands => exact (refersOnlyTo_connective .and).mp within child member
  | or id operands => exact (refersOnlyTo_connective .or).mp within child member
  | not id operand =>
    obtain rfl := List.mem_singleton.mp member
    exact within
  | constant | compare | isNull => cases member

theorem RefersOnlyTo.scalar {predicate : Predicate} {scalar : Scalar} (within : RefersOnlyTo aliases predicate)
    (member : scalar ∈ predicate.scalars) : scalar.RefersOnlyTo aliases := by
  cases predicate with
  | compare id comparison left right =>
    obtain ⟨onLeft, onRight⟩ := refersOnlyTo_compare.mp within
    rcases List.mem_pair.mp member with rfl | rfl
    · exact onLeft
    · exact onRight
  | isNull id operand =>
    obtain rfl := List.mem_singleton.mp member
    exact within
  | constant | and | or | not => cases member

theorem RefersOnlyTo.copyOver {predicate : Predicate} (within : RefersOnlyTo aliases predicate)
    {mapped : List Predicate} (id : NodeId) (below : ∀ child ∈ mapped, RefersOnlyTo aliases child) :
    RefersOnlyTo aliases (predicate.copyOver mapped id) := by
  cases predicate with
  | and => exact (refersOnlyTo_connective .and).mpr below
  | or => exact (refersOnlyTo_connective .or).mpr below
  | not innerId operand =>
    cases mapped with
    | nil => exact within
    | cons first rest => exact below first (List.mem_cons_self ..)
  | constant | compare | isNull => exact within

/-- Simplified over aliases that it refers to, a scalar refers to no other ones. -/
theorem refersOnlyTo_of_simplify {scalar : Scalar} {simplified : Constrained Scalar} {session after : Session Unit}
    (found : simplify (Scalar.setting environment ⟨Scalar.allRules⟩) scalar session = .ok simplified after)
    (within : scalar.RefersOnlyTo aliases) : simplified.value.RefersOnlyTo aliases :=
  (((Scalar.confines environment aliases).simplify within).at_ok found).1

/-- A replacement refers to nothing that the replaced predicate does not refer to. -/
theorem Step.refersOnlyTo {constraints : Table Predicate Constraint} {supply later : Supply}
    {current node : Predicate} {constraint : Constraint}
    (step : Step environment constraints supply current node constraint later)
    (within : RefersOnlyTo aliases current) : RefersOnlyTo aliases node := by
  cases step with
  | parameterDecided | comparisonFolded | nullTestFolded | constantNegated | absorbed | emptied =>
    exact refersOnlyTo_constant _ _
  | comparisonSimplified foundLeft foundRight =>
    obtain ⟨left, right⟩ := refersOnlyTo_compare.mp within
    exact refersOnlyTo_compare.mpr
      ⟨refersOnlyTo_of_simplify foundLeft left, refersOnlyTo_of_simplify foundRight right⟩
  | nullTestSimplified found => exact refersOnlyTo_of_simplify found within
  | doublyNegated => exact within
  | comparisonNegated =>
    have operands := refersOnlyTo_compare.mp (within.child (List.mem_singleton_self _))
    exact refersOnlyTo_compare.mpr operands
  | flattened =>
    have operands := (refersOnlyTo_connective _).mp within
    refine (refersOnlyTo_connective _).mpr fun node member => ?_
    rcases of_mem_flattened member with direct | ⟨operand, present, below⟩
    · exact operands node direct
    · exact (operands operand present).child below
  | collapsed _ single =>
    have kept := List.mem_of_mem_filter (single ▸ List.mem_singleton_self _)
    exact (refersOnlyTo_connective _).mp within _ kept
  | reduced =>
    have operands := (refersOnlyTo_connective _).mp within
    exact (refersOnlyTo_connective _).mpr fun node member => operands node (List.mem_of_mem_filter member)

theorem refersOnlyTo_negations {operands : List Predicate}
    (within : ∀ operand ∈ operands, RefersOnlyTo aliases operand) (allocated : Nat) :
    ∀ negation ∈ negations allocated operands, RefersOnlyTo aliases negation := by
  induction operands generalizing allocated with
  | nil => exact fun _ absent => nomatch absent
  | cons operand rest ih =>
    refine List.forall_mem_cons.mpr ⟨within operand (List.mem_cons_self ..), ?_⟩
    exact ih (fun other member => within other (List.mem_cons_of_mem _ member)) (allocated + 1)

theorem PushesDown.refersOnlyTo {constraints : Table Predicate Constraint} {supply later : Supply}
    {current node : Predicate} {constraint : Constraint}
    (pushes : PushesDown constraints supply current node constraint later)
    (within : RefersOnlyTo aliases current) : RefersOnlyTo aliases node := by
  cases pushes with
  | intro =>
    have operands := (refersOnlyTo_connective _).mp (within.child (List.mem_singleton_self _))
    exact (refersOnlyTo_connective _).mpr (refersOnlyTo_negations operands _)

/-- The conditions that a rule may add of its own at a node. -/
abbrev Origin (environment : Environment) (predicate : Predicate) (condition : Condition) : Prop :=
  condition.DerivedIn environment predicate.correlatedTo

theorem constantParameterNullTest_attaching :
    Attaching environment (Origin environment) constantParameterNullTest := by
  intro call session same
  subst same
  dsimp only [constantParameterNullTest]
  split
  · rename_i id parameterId symbol isTest
    split
    · exact .pure .nothing
    · rename_i constant
      split
      · rename_i value found
        refine .bind (.of_eq rfl (.pure (.only ?_)))
        intro condition member
        rw [Constraint.mem_of] at member
        have holds : condition.parameter? = some symbol ∧ condition.Holds call.environment.parameters := by
          subst member
          cases value <;> simp [Literal.isNull, Condition.parameter?, Condition.Holds, found]
        have refers : symbol ∈ call.current.correlatedTo := by
          simp [isTest, correlatedTo, Scalar.correlatedTo, AliasSet.of]
        exact .inr ⟨symbol, value, holds.1, refers, by simpa using constant, found, holds.2⟩
      · exact .pure .nothing
  · exact .pure .nothing

/-- What the simplification of a scalar assumes is derived from what the predicate refers to. -/
theorem simplifyOperands_attaching :
    Attaching environment (Origin environment) (simplifyOperands ⟨Scalar.allRules⟩) := by
  intro call session same
  subst same
  dsimp only [simplifyOperands]
  have simplified : WhenReturns
      (call.current.scalars.mapM (simplify (Scalar.setting call.environment ⟨Scalar.allRules⟩))) session
      fun results _ => ∀ result ∈ results, ∀ condition ∈ result.constraint.conditions,
        Origin call.environment call.current condition := by
    have fromScalars : ∀ scalar ∈ call.current.scalars, ∀ session, True →
        WhenReturns (simplify (Scalar.setting call.environment ⟨Scalar.allRules⟩) scalar) session fun result _ =>
          True ∧ ∀ condition ∈ result.constraint.conditions, Origin call.environment call.current condition := by
      intro scalar member session _
      refine (Scalar.simplify_confined call.environment scalar session).imp ?_
      intro result _ outcome
      refine ⟨trivial, fun condition present => ?_⟩
      exact (outcome.2 condition present).widen (RefersOnlyTo.scalar (fun _ refers => refers) member)
    exact (Ends.mapM_forall _ fromScalars trivial).imp fun _ _ outcome => outcome.2.2
  refine .bind (simplified.imp ?_)
  intro results middle derived
  split
  · exact .pure .nothing
  · refine .bind (whenReturns_iff.mpr fun replacement after _ => .pure (.only fun condition member => .inr ?_))
    obtain absent | ⟨constraint, present, within⟩ := Constraint.mem_foldl_compose.mp member
    · exact absurd absent Constraint.not_mem_none
    · obtain ⟨result, among, rfl⟩ := List.mem_map.mp present
      exact derived result among condition within

theorem foldConstantComparison_attaching :
    Attaching environment (Origin environment) foldConstantComparison := by
  intro call session _
  dsimp only [foldConstantComparison]
  split
  · split
    · split
      · split
        · exact .bind (.of_eq rfl (.pure .unconstrained))
        · exact .pure .nothing
      · exact .pure .nothing
    · exact .pure .nothing
  · exact .pure .nothing

theorem foldConstantNullTest_attaching : Attaching environment (Origin environment) foldConstantNullTest := by
  intro call session _
  dsimp only [foldConstantNullTest]
  split
  · split
    · exact .bind (.of_eq rfl (.pure .unconstrained))
    · exact .pure .nothing
  · exact .pure .nothing

theorem notOverConstant_attaching : Attaching environment (Origin environment) notOverConstant := by
  intro call session _
  refine Call.whenReturns_get fun constant => ?_
  split
  · exact .bind (.of_eq rfl (.pure (.carried [constant])))
  · exact .pure .nothing

theorem doubleNegation_attaching : Attaching environment (Origin environment) doubleNegation := by
  intro call session _
  refine Call.whenReturns_get fun inner => Call.whenReturns_get fun operand => ?_
  exact .pure (.carried [inner])

theorem notOverComparison_attaching : Attaching environment (Origin environment) notOverComparison := by
  intro call session _
  refine Call.whenReturns_get fun inner => ?_
  split
  · exact .bind (.of_eq rfl (.pure (.carried [_])))
  · exact .pure .nothing

theorem flatten_attaching (name description : String) (kind : PredicateKind) :
    Attaching environment (Origin environment) (flatten name description kind) := by
  intro call session _
  dsimp only [flatten]
  rw [newConnective_eq]
  exact .bind (.of_eq rfl (.pure (.carried _)))

theorem absorbConstants_attaching : Attaching environment (Origin environment) absorbConstants := by
  intro call session _
  dsimp only [absorbConstants]
  split
  · split
    · exact .pure (.carried [_])
    · split
      · exact .pure .nothing
      · split
        · exact .bind (.of_eq rfl (.pure (.carried _)))
        · exact .pure (.carried _)
        · rw [newConnective_eq]
          exact .bind (.of_eq rfl (.pure (.carried _)))
  · exact .pure .nothing

theorem deMorgan_attaching : Attaching environment (Origin environment) deMorgan := by
  intro call session _
  refine Call.whenReturns_get fun inner => ?_
  split
  · have carried : Attaches call (Origin environment) (.only inner (call.carried [inner])) := .carried [inner]
    refine .bind (.of_eq (mapM_newNot inner.children session) ?_)
    rw [newConnective_eq]
    exact .bind (.of_eq rfl (.pure carried))
  · exact .pure .nothing

theorem attaching_of_mem_allRules {rule : PredicateRule} (member : rule ∈ allRules ⟨Scalar.allRules⟩) :
    Attaching environment (Origin environment) rule := by
  simp only [allRules, List.mem_cons, List.not_mem_nil, or_false] at member
  rcases member with rfl | rfl | rfl | rfl | rfl | rfl | rfl | rfl | rfl | rfl | rfl
  · exact constantParameterNullTest_attaching
  · exact simplifyOperands_attaching
  · exact foldConstantComparison_attaching
  · exact foldConstantNullTest_attaching
  · exact notOverConstant_attaching
  · exact doubleNegation_attaching
  · exact notOverComparison_attaching
  · exact flatten_attaching _ _ _
  · exact flatten_attaching _ _ _
  · exact absorbConstants_attaching
  · exact deMorgan_attaching

theorem confines (environment : Environment) (aliases : AliasSet) {rules : List PredicateRule}
    (among : ∀ rule ∈ rules, rule ∈ allRules ⟨Scalar.allRules⟩) :
    Confines (setting environment ⟨rules⟩) (RefersOnlyTo aliases) (·.DerivedIn environment aliases) where
  children _ within _ member := within.child member
  copies _ _ id within below := within.copyOver id below
  rules call session same within records rule isRule matched := by
    have attaching : Attaching environment (Origin environment) rule := attaching_of_mem_allRules (among rule isRule)
    have originates (predicate : Predicate) (condition : Condition) (within : RefersOnlyTo aliases predicate)
        (derived : Origin environment predicate condition) : condition.DerivedIn environment aliases :=
      derived.widen within
    rcases mem_allRules.mp (among rule isRule) with simplifying | rfl
    · exact (isStep_of_mem_simplifyingRules environment simplifying).confined
        (fun _ _ _ _ _ _ step => step.refersOnlyTo) attaching originates same within records matched
    · exact (deMorgan_pushesDown environment).confined
        (fun _ _ _ _ _ _ pushes => pushes.refersOnlyTo) attaching originates same within records matched

/-- What simplification makes of a predicate refers to nothing new. -/
theorem simplify_refersOnlyTo (environment : Environment) (predicate : Predicate) (session : Session Unit) :
    WhenReturns (simplify (setting environment ⟨simplifyingRules⟩) predicate) session fun simplified _ =>
      RefersOnlyTo predicate.correlatedTo simplified.value :=
  ((confines environment predicate.correlatedTo fun _ member => mem_allRules.mpr (.inl member)).simplify
    fun _ present => present).imp fun _ _ outcome => outcome.1

end QueryOptimizer.Predicate
