import QueryOptimizer.Predicate.Rules
import QueryOptimizer.Proofs.Scalar.Step

/-!
What the rules for predicates do, as a relation with one case for each way of replacing a node, and
the one rule apart that pushes a negation down. Every step lowers the weight of the node, and so
simplification with the default rules always comes to an end.
-/
namespace QueryOptimizer

instance : LawfulTree Predicate where
  identity_copyOver node _ _ := by cases node <;> rfl
  children_copyOver node nodes _ size := by
    cases node with
    | and | or => rfl
    | not =>
      obtain ⟨operand, rfl⟩ := List.length_eq_one_iff.mp size
      rfl
    | constant | compare | isNull => exact (List.length_eq_zero_iff.mp size).symm
  operator_copyOver node _ _ := by cases node <;> rfl

namespace Predicate

/-- The conjunction or disjunction of the given kind. -/
def connective : PredicateKind → NodeId → List Predicate → Predicate
  | .or => or
  | _ => and

/-- The kinds of predicates that combine any number of operands. -/
def IsConnectiveKind (kind : PredicateKind) : Prop :=
  kind = .and ∨ kind = .or

theorem kind_connective {kind : PredicateKind} (combines : IsConnectiveKind kind) (id : NodeId)
    (operands : List Predicate) : (connective kind id operands).kind = kind := by
  rcases combines with rfl | rfl <;> rfl

@[simp] theorem children_connective (kind : PredicateKind) (id : NodeId) (operands : List Predicate) :
    (connective kind id operands).children = operands := by
  cases kind <;> rfl

@[simp] theorem identity_connective (kind : PredicateKind) (id : NodeId) (operands : List Predicate) :
    (connective kind id operands).identity = id := by
  cases kind <;> rfl

@[simp] theorem scalars_connective (kind : PredicateKind) (id : NodeId) (operands : List Predicate) :
    (connective kind id operands).scalars = [] := by
  cases kind <;> rfl

theorem eq_connective_of_kind {predicate : Predicate} {kind : PredicateKind} (combines : IsConnectiveKind kind)
    (same : predicate.kind = kind) : ∃ id operands, predicate = connective kind id operands := by
  rcases combines with rfl | rfl
  · cases predicate with
    | and id operands => exact ⟨id, operands, rfl⟩
    | _ => cases same
  · cases predicate with
    | or id operands => exact ⟨id, operands, rfl⟩
    | _ => cases same

theorem combines_of_isConnective {predicate : Predicate} (connects : predicate.isConnective = true) :
    IsConnectiveKind predicate.kind := by
  cases predicate with
  | and => exact .inl rfl
  | or => exact .inr rfl
  | constant | not | compare | isNull => cases connects

theorem eq_connective_of_isConnective {predicate : Predicate} (connects : predicate.isConnective = true) :
    ∃ kind id operands, IsConnectiveKind kind ∧ predicate = connective kind id operands := by
  have combines := combines_of_isConnective connects
  obtain ⟨id, operands, same⟩ := eq_connective_of_kind combines rfl
  exact ⟨predicate.kind, id, operands, combines, same⟩

theorem eq_constant_of_asConstant? {predicate : Predicate} {truth : Truth}
    (found : predicate.asConstant? = some truth) : ∃ id, predicate = .constant id truth := by
  cases predicate with
  | constant id value =>
    cases found
    exact ⟨id, rfl⟩
  | and | or | not | compare | isNull => cases found

theorem newConnective_eq {m : Type → Type} [Monad m] [MonadFresh m] (kind : PredicateKind)
    (operands : List Predicate) :
    (newConnective kind operands : m Predicate) = do return connective kind (← fresh) operands := by
  cases kind <;> rfl

/-- The operands of a connective, with nested connectives of its kind replaced by their operands. -/
def flattened (kind : PredicateKind) (operands : List Predicate) : List Predicate :=
  operands.flatMap fun operand => if operand.kind = kind then operand.children else [operand]

/-- The truth of a predicate about constants. -/
def folded? : Predicate → Option Truth
  | compare _ comparison left right => do comparison.eval? (← left.asLiteral?) (← right.asLiteral?)
  | isNull _ operand => do return .ofBool (← operand.asLiteral?).isNull
  | _ => none

/-- New negations of predicates, under consecutive identities. -/
def negations (allocated : Nat) : List Predicate → List Predicate
  | [] => []
  | predicate :: rest => .not ⟨allocated⟩ predicate :: negations (allocated + 1) rest

/-- One replacement of a node that is not to be explored again, with its constraint and the identities
left, given the constraints recorded before and the identities there were. -/
inductive Step (environment : Environment) (constraints : Table Predicate Constraint) (supply : Supply) :
    (current node : Predicate) → Constraint → Supply → Prop where
  | parameterDecided {id parameterId : NodeId} : environment.constants.contains symbol = true →
      environment.parameters.get? symbol = some value →
      Step environment constraints supply (.isNull id (.parameter parameterId symbol))
        (.constant supply.draw.1 (.ofBool value.isNull))
        (.of (if value.isNull then .isNull symbol else .isNotNull symbol)) supply.draw.2
  | comparisonSimplified {id : NodeId} :
      simplify (Scalar.setting environment ⟨Scalar.allRules⟩) left ⟨supply, ()⟩ = .ok newLeft ⟨middle, ()⟩ →
      simplify (Scalar.setting environment ⟨Scalar.allRules⟩) right ⟨middle, ()⟩ = .ok newRight ⟨later, ()⟩ →
      ¬ sameNode left newLeft.value = true ∨ ¬ sameNode right newRight.value = true →
      (∀ condition ∈ newLeft.constraint.conditions, condition ∈ constraint.conditions) →
      (∀ condition ∈ newRight.constraint.conditions, condition ∈ constraint.conditions) →
      Step environment constraints supply (.compare id comparison left right)
        (.compare later.draw.1 comparison newLeft.value newRight.value) constraint later.draw.2
  | nullTestSimplified {id : NodeId} :
      simplify (Scalar.setting environment ⟨Scalar.allRules⟩) operand ⟨supply, ()⟩ = .ok simplified ⟨later, ()⟩ →
      ¬ sameNode operand simplified.value = true →
      (∀ condition ∈ simplified.constraint.conditions, condition ∈ constraint.conditions) →
      Step environment constraints supply (.isNull id operand) (.isNull later.draw.1 simplified.value)
        constraint later.draw.2
  | comparisonFolded {id leftId rightId : NodeId} : comparison.eval? left right = some truth →
      Step environment constraints supply
        (.compare id comparison (.literal leftId left) (.literal rightId right))
        (.constant supply.draw.1 truth) constraint supply.draw.2
  | nullTestFolded {id operandId : NodeId} {value : Literal} :
      Step environment constraints supply (.isNull id (.literal operandId value))
        (.constant supply.draw.1 (.ofBool value.isNull)) constraint supply.draw.2
  | constantNegated {id : NodeId} : Carries constraints constraint [.constant innerId truth] →
      Step environment constraints supply (.not id (.constant innerId truth))
        (.constant supply.draw.1 truth.not) constraint supply.draw.2
  | doublyNegated {id : NodeId} : Carries constraints constraint [.not innerId operand] →
      Step environment constraints supply (.not id (.not innerId operand)) operand constraint supply
  | comparisonNegated {id : NodeId} :
      Carries constraints constraint [.compare innerId comparison left right] →
      Step environment constraints supply (.not id (.compare innerId comparison left right))
        (.compare supply.draw.1 comparison.negate left right) constraint supply.draw.2
  | flattened {kind : PredicateKind} {id : NodeId} : IsConnectiveKind kind →
      (∃ operand ∈ operands, operand.kind = kind) →
      Carries constraints constraint (operands.filter fun operand => operand.kind = kind) →
      Step environment constraints supply (connective kind id operands)
        (connective kind supply.draw.1 (flattened kind operands)) constraint supply.draw.2
  | absorbed {kind : PredicateKind} {id : NodeId} : identityAndAbsorbing? kind = some (neutral, absorbing) →
      .constant absorberId absorbing ∈ operands →
      Carries constraints constraint [.constant absorberId absorbing] →
      Step environment constraints supply (connective kind id operands) (.constant absorberId absorbing)
        constraint supply
  | emptied {kind : PredicateKind} {id : NodeId} : identityAndAbsorbing? kind = some (neutral, absorbing) →
      (∀ operand ∈ operands, operand.asConstant? = some neutral) →
      Carries constraints constraint operands →
      Step environment constraints supply (connective kind id operands) (.constant supply.draw.1 neutral)
        constraint supply.draw.2
  | collapsed {kind : PredicateKind} {id : NodeId} : identityAndAbsorbing? kind = some (neutral, absorbing) →
      (operands.filter fun operand => operand.asConstant? ≠ some neutral) = [kept] →
      Carries constraints constraint (operands.filter fun operand => operand.asConstant? = some neutral) →
      Step environment constraints supply (connective kind id operands) kept constraint supply
  | reduced {kind : PredicateKind} {id : NodeId} : identityAndAbsorbing? kind = some (neutral, absorbing) →
      (∃ operand ∈ operands, operand.asConstant? = some neutral) →
      Carries constraints constraint (operands.filter fun operand => operand.asConstant? = some neutral) →
      Step environment constraints supply (connective kind id operands)
        (connective kind supply.draw.1 (operands.filter fun operand => operand.asConstant? ≠ some neutral))
        constraint supply.draw.2

/-- A negated connective becomes the dual connective of the negated operands. -/
inductive PushesDown (constraints : Table Predicate Constraint) (supply : Supply) :
    (current node : Predicate) → Constraint → Supply → Prop where
  | intro {kind : PredicateKind} {id : NodeId} : dual? kind = some dual →
      Carries constraints constraint [connective kind innerId operands] →
      PushesDown constraints supply (.not id (connective kind innerId operands))
        (connective dual ⟨supply.allocated + operands.length⟩ (negations supply.allocated operands))
        constraint ⟨supply.allocated + operands.length + 1⟩

/-- What it means for a predicate rule to be made of steps. -/
abbrev Rule.IsStep (environment : Environment) (rule : PredicateRule) (declines : Predicate → Prop) : Prop :=
  Conforms environment rule false declines fun constraints session current node constraint after =>
    Step environment constraints session.supply current node constraint after.supply

theorem constantParameterNullTest_isStep (environment : Environment) :
    Rule.IsStep environment constantParameterNullTest fun _ => True := by
  intro call session same _
  subst same
  dsimp only [constantParameterNullTest]
  split
  · rename_i id parameterId symbol isTest
    split
    · exact .pure (.nothing (Nat.le_refl _) trivial)
    · rename_i constant
      split
      · rename_i value found
        refine .bind (.of_eq rfl (.pure (.only ?_)))
        rw [isTest]
        exact .parameterDecided (by simpa using constant) found
      · exact .pure (.nothing (Nat.le_refl _) trivial)
  · exact .pure (.nothing (Nat.le_refl _) trivial)

theorem foldConstantComparison_isStep (environment : Environment) :
    Rule.IsStep environment foldConstantComparison fun node => folded? node = none := by
  intro call session same matched
  subst same
  have isCompare := (Pattern.mem_allMatches_operator.mp matched).1
  dsimp only [foldConstantComparison]
  cases shape : call.current with
  | compare id comparison left right =>
    dsimp only [folded?]
    cases isLeft : left.asLiteral? with
    | none => exact .pure (.nothing (Nat.le_refl _) rfl)
    | some leftValue =>
      obtain ⟨leftId, rfl⟩ := Scalar.eq_literal_of_asLiteral? isLeft
      cases isRight : right.asLiteral? with
      | none => exact .pure (.nothing (Nat.le_refl _) rfl)
      | some rightValue =>
        obtain ⟨rightId, rfl⟩ := Scalar.eq_literal_of_asLiteral? isRight
        dsimp only [Option.bind_eq_bind, Option.bind_some]
        cases evaluated : comparison.eval? leftValue rightValue with
        | none => exact .pure (.nothing (Nat.le_refl _) rfl)
        | some truth => exact .bind (.of_eq rfl (.pure (.only (.comparisonFolded evaluated))))
  | constant | and | or | not | isNull => cases shape ▸ isCompare

theorem foldConstantNullTest_isStep (environment : Environment) :
    Rule.IsStep environment foldConstantNullTest fun node => folded? node = none := by
  intro call session same matched
  subst same
  have isTest := (Pattern.mem_allMatches_operator.mp matched).1
  dsimp only [foldConstantNullTest]
  cases shape : call.current with
  | isNull id operand =>
    dsimp only [folded?]
    cases found : operand.asLiteral? with
    | none => exact .pure (.nothing (Nat.le_refl _) rfl)
    | some value =>
      obtain ⟨operandId, rfl⟩ := Scalar.eq_literal_of_asLiteral? found
      exact .bind (.of_eq rfl (.pure (.only .nullTestFolded)))
  | constant | and | or | not | compare => cases shape ▸ isTest

theorem eq_not_of_children {predicate inner : Predicate} (isNot : predicate.kind = .not)
    (single : predicate.children = [inner]) : ∃ id, predicate = .not id inner := by
  cases predicate with
  | not id operand =>
    obtain rfl := List.singleton_inj.mp single
    exact ⟨id, rfl⟩
  | constant | and | or | compare | isNull => cases isNot

/-- A match of a negation over a node of one kind. -/
theorem matched_negation {call : Call Predicate} {kind : PredicateKind} {key : String}
    (matched : call.bindings ∈
      (Pattern.exactly .not none [.operator kind (some key)]).allMatches .empty call.current) :
    ∃ id inner, call.current = .not id inner ∧ inner.kind = kind ∧ call.bindings.get? key = some inner := by
  obtain ⟨isNot, child, single, below⟩ := Pattern.mem_allMatches_exactly_one.mp matched
  obtain ⟨same, bound⟩ := Pattern.mem_allMatches_operator.mp below
  have found : call.bindings.get? key = some child := by
    rw [bound]
    exact Bindings.get?_bind_same _ rfl
  obtain ⟨id, shape⟩ := eq_not_of_children isNot single
  exact ⟨id, child, shape, same, found⟩

theorem notOverConstant_isStep (environment : Environment) :
    Rule.IsStep environment notOverConstant fun _ => False := by
  intro call session same matched
  subst same
  obtain ⟨id, inner, isNot, isConstant, found⟩ := matched_negation matched
  cases inner with
  | constant innerId truth =>
    dsimp only [notOverConstant]
    rw [Call.get_of_bound found, pure_bind]
    have carried := call.carries_carried [.constant innerId truth]
    refine .bind (.of_eq rfl (.pure (.only ?_)))
    rw [isNot]
    exact .constantNegated carried
  | and | or | not | compare | isNull => cases isConstant

theorem notOverComparison_isStep (environment : Environment) :
    Rule.IsStep environment notOverComparison fun _ => False := by
  intro call session same matched
  subst same
  obtain ⟨id, inner, isNot, isCompare, found⟩ := matched_negation matched
  cases inner with
  | compare innerId comparison left right =>
    dsimp only [notOverComparison]
    rw [Call.get_of_bound found, pure_bind]
    have carried := call.carries_carried [.compare innerId comparison left right]
    refine .bind (.of_eq rfl (.pure (.only ?_)))
    rw [isNot]
    exact .comparisonNegated carried
  | and | or | not | constant | isNull => cases isCompare

theorem doubleNegation_isStep (environment : Environment) :
    Rule.IsStep environment doubleNegation fun _ => False := by
  intro call session same matched
  subst same
  obtain ⟨isNot, inner, single, below⟩ := Pattern.mem_allMatches_exactly_one.mp matched
  obtain ⟨innerIsNot, operand, innerSingle, further⟩ := Pattern.mem_allMatches_exactly_one.mp below
  have bound := Pattern.mem_allMatches_any.mp further
  have foundInner : call.bindings.get? "inner" = some inner := by
    rw [bound]
    exact (Bindings.get?_bind_other _ (by decide)).trans (Bindings.get?_bind_same _ rfl)
  have foundOperand : call.bindings.get? "operand" = some operand := by
    rw [bound]
    exact Bindings.get?_bind_same _ ((Bindings.get?_bind_other _ (by decide)).trans rfl)
  obtain ⟨id, shape⟩ := eq_not_of_children isNot single
  obtain ⟨innerId, rfl⟩ := eq_not_of_children innerIsNot innerSingle
  dsimp only [doubleNegation]
  rw [Call.get_of_bound foundInner, pure_bind, Call.get_of_bound foundOperand, pure_bind]
  have carried := call.carries_carried [.not innerId operand]
  refine .pure (.only ?_)
  rw [shape]
  exact .doublyNegated carried

theorem simplifyOperands_isStep (environment : Environment) :
    Rule.IsStep environment (simplifyOperands ⟨Scalar.allRules⟩) fun _ => True := by
  intro call session same _
  subst same
  dsimp only [simplifyOperands]
  cases shape : call.current with
  | compare id comparison left right =>
    obtain ⟨newLeft, ⟨middle, ⟨⟩⟩, foundLeft, someDrawn, -⟩ :=
      (Scalar.simplify_lightened call.environment left session).returned
    obtain ⟨newRight, ⟨later, ⟨⟩⟩, foundRight, moreDrawn, -⟩ :=
      (Scalar.simplify_lightened call.environment right ⟨middle, ()⟩).returned
    simp only [scalars, List.mapM_cons, List.mapM_nil, bind_assoc, pure_bind]
    refine .bind (.of_eq foundLeft (.bind (.of_eq foundRight ?_)))
    by_cases same : sameNode left newLeft.value = true ∧ sameNode right newRight.value = true
    · simp only [List.map_cons, List.map_nil, List.zip_cons_cons, List.zip_nil_left, List.all_cons,
        List.all_nil, same.1, same.2, Bool.and_self, if_true]
      exact .pure (.nothing (Nat.le_trans someDrawn moreDrawn) trivial)
    · have changed : ¬ ([left, right].zip [newLeft.value, newRight.value]).all
          (fun pair => sameNode pair.1 pair.2) = true := by
        simpa using same
      simp only [List.map_cons, List.map_nil, changed]
      refine .bind (.of_eq rfl (.pure (.only ?_)))
      refine .comparisonSimplified foundLeft foundRight (not_and_or.mp same) ?_ ?_
      · intro condition member
        exact Constraint.mem_foldl_compose.mpr (.inr ⟨newLeft.constraint, by simp, member⟩)
      · intro condition member
        exact Constraint.mem_foldl_compose.mpr (.inr ⟨newRight.constraint, by simp, member⟩)
  | isNull id operand =>
    obtain ⟨simplified, ⟨later, ⟨⟩⟩, found, drawn, -⟩ :=
      (Scalar.simplify_lightened call.environment operand session).returned
    simp only [scalars, List.mapM_cons, List.mapM_nil, bind_assoc, pure_bind]
    refine .bind (.of_eq found ?_)
    by_cases same : sameNode operand simplified.value = true
    · simp only [List.map_cons, List.map_nil, List.zip_cons_cons, List.zip_nil_left, List.all_cons,
        List.all_nil, same, Bool.and_self, if_true]
      exact .pure (.nothing drawn trivial)
    · have changed : ¬ ([operand].zip [simplified.value]).all (fun pair => sameNode pair.1 pair.2) = true := by
        simpa using same
      simp only [List.map_cons, List.map_nil, changed]
      refine .bind (.of_eq rfl (.pure (.only ?_)))
      refine .nullTestSimplified found same ?_
      intro condition member
      exact Constraint.mem_foldl_compose.mpr (.inr ⟨simplified.constraint, by simp, member⟩)
  | constant | and | or | not => exact .pure (.nothing (Nat.le_refl _) trivial)

theorem flatten_isStep (environment : Environment) (name description : String) {kind : PredicateKind}
    (combines : IsConnectiveKind kind) :
    Rule.IsStep environment (flatten name description kind) fun _ => False := by
  intro call session same matched
  subst same
  obtain ⟨nested, -⟩ := Pattern.mem_allMatches_filter.mp matched
  simp only [isNested, Bool.and_eq_true, decide_eq_true_eq, List.any_eq_true] at nested
  obtain ⟨id, operands, shape⟩ := eq_connective_of_kind combines nested.1
  have some_nested : ∃ operand ∈ operands, operand.kind = kind := by simpa [shape] using nested.2
  have carried := call.carries_carried (operands.filter fun operand => operand.kind = kind)
  dsimp only [flatten]
  rw [newConnective_eq]
  refine .bind (.of_eq rfl (.pure (.only ?_)))
  rw [shape, children_connective]
  exact .flattened combines some_nested carried

/-- A connective that none of its operands decides, with two operands or more and no constant to drop. -/
def Irreducible (predicate : Predicate) : Prop :=
  2 ≤ predicate.children.length ∧
    ∀ operand ∈ predicate.children, operand.asConstant? ≠ some .holds ∧ operand.asConstant? ≠ some .fails

theorem identityAndAbsorbing?_of_combines {kind : PredicateKind} (combines : IsConnectiveKind kind) :
    ∃ neutral absorbing, identityAndAbsorbing? kind = some (neutral, absorbing) := by
  rcases combines with rfl | rfl
  · exact ⟨_, _, rfl⟩
  · exact ⟨_, _, rfl⟩

theorem partition_neutral (operands : List Predicate) (neutral : Truth) :
    (operands.partition fun operand => operand.asConstant? = some neutral) =
      (operands.filter (fun operand => operand.asConstant? = some neutral),
        operands.filter fun operand => operand.asConstant? ≠ some neutral) := by
  rw [List.partition_eq_filter_filter]
  simp [Function.comp_def]

/-- A connective is irreducible if and only if neither of its two constants is among its operands. -/
theorem irreducible_connective_iff {kind : PredicateKind} {neutral absorbing : Truth} {id : NodeId}
    {operands : List Predicate} (constants : identityAndAbsorbing? kind = some (neutral, absorbing)) :
    Irreducible (connective kind id operands) ↔ 2 ≤ operands.length ∧
      ∀ operand ∈ operands, operand.asConstant? ≠ some neutral ∧ operand.asConstant? ≠ some absorbing := by
  unfold Irreducible
  rw [children_connective]
  cases kind with
  | and =>
    cases constants
    rfl
  | or =>
    cases constants
    simp only [and_comm]
  | constant | not | compare | isNull => cases constants

/-- Nothing is dropped, and no single operand left, if and only if there are several operands and none is neutral. -/
theorem keepsAll_iff {operands : List Predicate} {neutral : Truth} :
    ((operands.filter fun operand => operand.asConstant? = some neutral).isEmpty &&
        decide ((operands.filter fun operand => operand.asConstant? ≠ some neutral).length > 1)) = true ↔
      2 ≤ operands.length ∧ ∀ operand ∈ operands, operand.asConstant? ≠ some neutral := by
  simp only [Bool.and_eq_true, List.isEmpty_iff, List.filter_eq_nil_iff, decide_eq_true_eq]
  constructor
  · rintro ⟨none, several⟩
    exact ⟨several.trans_le (List.length_filter_le _ _), none⟩
  · rintro ⟨several, none⟩
    rw [List.filter_eq_self.mpr fun operand member => decide_eq_true (none operand member)]
    exact ⟨none, several⟩

theorem absorbConstants_isStep (environment : Environment) :
    Rule.IsStep environment absorbConstants Irreducible := by
  intro call session same matched
  subst same
  obtain ⟨connects, -⟩ := Pattern.mem_allMatches_filter.mp matched
  obtain ⟨kind, id, operands, combines, shape⟩ := eq_connective_of_isConnective connects
  obtain ⟨neutral, absorbing, constants⟩ := identityAndAbsorbing?_of_combines combines
  have carried := call.carries_carried (operands.filter fun operand => operand.asConstant? = some neutral)
  dsimp only [absorbConstants]
  rw [shape, kind_connective combines, children_connective, constants]
  dsimp only
  cases decided : operands.find? fun operand => operand.asConstant? = some absorbing with
  | some absorber =>
    obtain ⟨absorberId, rfl⟩ := eq_constant_of_asConstant? (by simpa using List.find?_some decided)
    have carried := call.carries_carried [.constant absorberId absorbing]
    exact .pure (.only (.absorbed constants (List.mem_of_find?_eq_some decided) carried))
  | none =>
    have undecided : ∀ operand ∈ operands, operand.asConstant? ≠ some absorbing := by
      simpa using decided
    rw [partition_neutral]
    dsimp only
    split
    · rename_i settled
      obtain ⟨several, kept⟩ := keepsAll_iff.mp settled
      exact .pure (.nothing (Nat.le_refl _) ((irreducible_connective_iff constants).mpr
        ⟨several, fun operand member => ⟨kept operand member, undecided operand member⟩⟩))
    · rename_i unsettled
      split
      · rename_i empty
        have constant : ∀ operand ∈ operands, operand.asConstant? = some neutral := by
          simpa using List.filter_eq_nil_iff.mp empty
        have all : (operands.filter fun operand => operand.asConstant? = some neutral) = operands :=
          List.filter_eq_self.mpr (by simpa using constant)
        rw [all] at carried ⊢
        refine .bind (.of_eq rfl (.pure (.only ?_)))
        exact .emptied constants constant carried
      · rename_i kept single
        exact .pure (.only (.collapsed constants single carried))
      · rename_i notEmpty notSingle
        have several : 2 ≤ (operands.filter fun operand => operand.asConstant? ≠ some neutral).length := by
          generalize (operands.filter fun operand => operand.asConstant? ≠ some neutral) = kept at *
          match kept with
          | [] => exact False.elim (notEmpty rfl)
          | [operand] => exact False.elim (notSingle operand rfl)
          | _ :: _ :: _ => exact Nat.le_add_left 2 _
        have dropped : ∃ operand ∈ operands, operand.asConstant? = some neutral := by
          by_contra none
          exact unsettled (keepsAll_iff.mpr ⟨several.trans (List.length_filter_le _ _), by simpa using none⟩)
        rw [newConnective_eq]
        refine .bind (.of_eq rfl (.pure (.only ?_)))
        exact .reduced constants dropped carried

/-- New negations get the next identities. -/
theorem mapM_newNot (operands : List Predicate) (session : Session Unit) :
    (operands.mapM newNot : RuleM Unit (List Predicate)) session =
      .ok (negations session.supply.allocated operands) ⟨⟨session.supply.allocated + operands.length⟩, ()⟩ := by
  induction operands generalizing session with
  | nil => rfl
  | cons operand rest ih =>
    have others := ih ⟨session.supply.draw.2, ()⟩
    have first : (newNot operand : RuleM Unit Predicate) session =
        .ok (.not session.supply.draw.1 operand) ⟨session.supply.draw.2, ()⟩ := rfl
    rw [List.mapM_cons, bind_of_ok first, bind_of_ok others]
    simp [negations, Supply.draw, EStateM.pure, pure, Nat.add_assoc, Nat.add_comm 1]

theorem deMorgan_pushesDown (environment : Environment) :
    Conforms environment deMorgan true (fun _ => False) fun constraints session current node constraint after =>
      PushesDown constraints session.supply current node constraint after.supply := by
  intro call session same matched
  subst same
  obtain ⟨isNot, inner, single, below⟩ := Pattern.mem_allMatches_exactly_one.mp matched
  obtain ⟨connects, bound⟩ := Pattern.mem_allMatches_filter.mp below
  have found : call.bindings.get? "connective" = some inner := by
    rw [bound]
    exact Bindings.get?_bind_same _ rfl
  obtain ⟨id, shape⟩ := eq_not_of_children isNot single
  obtain ⟨kind, innerId, operands, combines, rfl⟩ := eq_connective_of_isConnective connects
  obtain ⟨dual, isDual⟩ : ∃ dual, dual? kind = some dual := by
    rcases combines with rfl | rfl
    · exact ⟨_, rfl⟩
    · exact ⟨_, rfl⟩
  have carried := call.carries_carried [connective kind innerId operands]
  dsimp only [deMorgan]
  rw [Call.get_of_bound found, pure_bind, kind_connective combines, isDual, children_connective]
  dsimp only
  refine .bind (.of_eq (mapM_newNot operands session) ?_)
  rw [newConnective_eq]
  refine .bind (.of_eq rfl (.pure (.inr ⟨_, rfl, rfl, ?_⟩)))
  show PushesDown call.constraints session.supply call.current _
    (Constraint.none.compose (call.carried [connective kind innerId operands])) _
  rw [shape, Constraint.none_compose]
  exact .intro isDual carried

/-- The rules that never ask for re-exploration. -/
def simplifyingRules : List PredicateRule :=
  (allRules ⟨Scalar.allRules⟩).dropLast

theorem mem_allRules {rule : PredicateRule} :
    rule ∈ allRules ⟨Scalar.allRules⟩ ↔ rule ∈ simplifyingRules ∨ rule = deMorgan := by
  have parts : allRules ⟨Scalar.allRules⟩ = simplifyingRules ++ [deMorgan] := rfl
  rw [parts, List.mem_append, List.mem_singleton]

/-- Every predicate rule but the one that pushes negations down simplifies scalars with the given rules, or makes
steps and nothing else. -/
theorem isStep_of_mem_dropLast (environment : Environment) {scalarRules : RuleSet Scalar ScalarKind Scalar.Action}
    {rule : PredicateRule} (member : rule ∈ (allRules scalarRules).dropLast) :
    rule = simplifyOperands scalarRules ∨ Rule.IsStep environment rule fun _ => True := by
  simp only [allRules, List.dropLast_cons_cons, List.dropLast_singleton, List.mem_cons, List.not_mem_nil,
    or_false] at member
  rcases member with rfl | rfl | rfl | rfl | rfl | rfl | rfl | rfl | rfl | rfl
  · exact .inr (constantParameterNullTest_isStep environment)
  · exact .inl rfl
  · exact .inr ((foldConstantComparison_isStep environment).declining fun _ _ => trivial)
  · exact .inr ((foldConstantNullTest_isStep environment).declining fun _ _ => trivial)
  · exact .inr ((notOverConstant_isStep environment).declining fun _ _ => trivial)
  · exact .inr ((doubleNegation_isStep environment).declining fun _ _ => trivial)
  · exact .inr ((notOverComparison_isStep environment).declining fun _ _ => trivial)
  · exact .inr ((flatten_isStep environment _ _ (.inl rfl)).declining fun _ _ => trivial)
  · exact .inr ((flatten_isStep environment _ _ (.inr rfl)).declining fun _ _ => trivial)
  · exact .inr ((absorbConstants_isStep environment).declining fun _ _ => trivial)

/-- Every predicate rule but the one that pushes negations down makes steps and nothing else. -/
theorem isStep_of_mem_simplifyingRules (environment : Environment) {rule : PredicateRule}
    (member : rule ∈ simplifyingRules) : Rule.IsStep environment rule fun _ => True := by
  rcases isStep_of_mem_dropLast environment member with rfl | isStep
  · exact simplifyOperands_isStep environment
  · exact isStep

theorem addedInOrder_defaultRuleBuilder :
    (defaultRuleBuilder ⟨Scalar.allRules⟩).AddedInOrder := by
  intro entry present dependency member
  simp only [defaultRuleBuilder, RuleSetBuilder.add, RuleSetBuilder.addAfter, RuleSetBuilder.empty,
    List.nil_append, List.cons_append, List.zipIdx_cons, List.zipIdx_nil, List.mem_cons,
    List.not_mem_nil, or_false] at present
  rcases present with rfl | rfl | rfl | rfl | rfl | rfl | rfl | rfl | rfl | rfl
  case inr.inr.inl =>
    obtain rfl := List.mem_singleton.mp member
    exact ⟨1, by decide, rfl⟩
  all_goals cases member

/-- The default set has the simplifying rules in the order in which they are added. -/
theorem defaultRules_eq : defaultRules = .ok ⟨simplifyingRules⟩ := by
  rw [defaultRules, Scalar.defaultRules_eq]
  exact RuleSetBuilder.build_of_addedInOrder _ addedInOrder_defaultRuleBuilder

/-- The normalizing set has all rules in the order in which they are added. -/
theorem normalizationRules_eq : normalizationRules = .ok ⟨allRules ⟨Scalar.allRules⟩⟩ := by
  rw [normalizationRules, Scalar.defaultRules_eq]
  exact RuleSetBuilder.build_of_addedInOrder _ (addedInOrder_defaultRuleBuilder.add deMorgan)

end Predicate
end QueryOptimizer
