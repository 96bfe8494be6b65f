import QueryOptimizer.Proofs.Pattern
import QueryOptimizer.Proofs.Rule.Set
import QueryOptimizer.Proofs.Simplification.Call
import QueryOptimizer.Proofs.Simplification.Weight
import QueryOptimizer.Scalar.Rules

/-!
What the rules for scalar expressions do, as a relation with one case for each way of replacing a
node. Every rule conforms to it, every step lowers the weight of the node, and so simplification with
the default rules always comes to an end.
-/
namespace QueryOptimizer

instance : LawfulTree Scalar where
  identity_copyOver node _ _ := by cases node <;> rfl
  children_copyOver node nodes _ size := by
    cases node with
    | call => rfl
    | literal | column | parameter => exact (List.length_eq_zero_iff.mp size).symm
  operator_copyOver node _ _ := by cases node <;> rfl

namespace Scalar

/-- The integer that `function` leaves its left operand as it is with, on the right. -/
def RightIdentity : ScalarFunction → Int64 → Prop
  | .add, neutral | .sub, neutral => neutral = 0
  | .mul, neutral => neutral = 1
  | _, _ => False

/-- The integer that `function` leaves its right operand as it is with, on the left. -/
def LeftIdentity : ScalarFunction → Int64 → Prop
  | .add, neutral => neutral = 0
  | .mul, neutral => neutral = 1
  | _, _ => False

/-- One replacement of a node, with its constraint and the identities left, given the constraints
recorded before and the identities there were. -/
inductive Step (environment : Environment) (constraints : Table Scalar Constraint) (supply : Supply) :
    (current node : Scalar) → Constraint → Supply → Prop where
  | inlined {id : NodeId} : environment.constants.contains symbol = true →
      environment.parameters.get? symbol = some value →
      Step environment constraints supply (.parameter id symbol) (.literal supply.draw.1 value)
        (.of (if value.isNull then .isNull symbol else .equals symbol value)) supply.draw.2
  | selected {id : NodeId} : components[position]? = some component →
      Carries constraints constraint [.call recordId .record components] →
      Step environment constraints supply
        (.call id (.field position) [.call recordId .record components]) component constraint supply
  | foldedUnary {id : NodeId} : function.evalUnary? operand = some value →
      Carries constraints constraint [.literal operandId operand] →
      Step environment constraints supply (.call id function [.literal operandId operand])
        (.literal supply.draw.1 value) constraint supply.draw.2
  | foldedBinary {id : NodeId} : function.evalBinary? left right = some value →
      Carries constraints constraint [.literal leftId left, .literal rightId right] →
      Step environment constraints supply
        (.call id function [.literal leftId left, .literal rightId right])
        (.literal supply.draw.1 value) constraint supply.draw.2
  | rightDropped {id : NodeId} : RightIdentity function neutral →
      Carries constraints constraint [.literal droppedId (.int neutral)] →
      Step environment constraints supply
        (.call id function [kept, .literal droppedId (.int neutral)]) kept constraint supply
  | leftDropped {id : NodeId} : LeftIdentity function neutral →
      Carries constraints constraint [.literal droppedId (.int neutral)] →
      Step environment constraints supply
        (.call id function [.literal droppedId (.int neutral), kept]) kept constraint supply

/-- The value of a parameter that is constant for the execution. -/
def inlined? (environment : Environment) : Scalar → Option Literal
  | parameter _ symbol =>
    if environment.constants.contains symbol then environment.parameters.get? symbol else none
  | _ => none

/-- The component that a field of a record selects. -/
def selected? : Scalar → Option Scalar
  | call _ (.field position) [argument] =>
    if argument.kind = .record then argument.children[position]? else none
  | _ => none

/-- The value of a function on constants. -/
def folded? : Scalar → Option Literal
  | call _ function [argument] => argument.asLiteral?.bind function.evalUnary?
  | call _ function [left, right] => do function.evalBinary? (← left.asLiteral?) (← right.asLiteral?)
  | _ => none

theorem eq_literal_of_asLiteral? {scalar : Scalar} {value : Literal}
    (found : scalar.asLiteral? = some value) : ∃ id, scalar = .literal id value := by
  cases scalar with
  | literal id value =>
    cases found
    exact ⟨id, rfl⟩
  | column | parameter | call => cases found

theorem eq_literal_of_isInt {scalar : Scalar} {value : Int64} (same : scalar.isInt value = true) :
    ∃ id, scalar = .literal id (.int value) :=
  eq_literal_of_asLiteral? (by simpa [isInt] using same)

theorem eq_record_of_kind {scalar : Scalar} (same : scalar.kind = .record) :
    ∃ id components, scalar = .call id .record components := by
  cases scalar with
  | call id function components =>
    cases function with
    | record => exact ⟨id, components, rfl⟩
    | _ => cases same
  | literal | column | parameter => cases same

/-- The ways of applying a function to an identity. -/
theorem keptAndDropped?_cases {current kept dropped : Scalar}
    (found : keptAndDropped? current = some (kept, dropped)) :
    ∃ id function droppedId neutral, dropped = .literal droppedId (.int neutral) ∧
      (RightIdentity function neutral ∧ current = .call id function [kept, dropped] ∨
        LeftIdentity function neutral ∧ current = .call id function [dropped, kept]) := by
  unfold keptAndDropped? at found
  split at found
  · rename_i id left right
    split at found
    · rename_i right_zero
      cases found
      obtain ⟨droppedId, same⟩ := eq_literal_of_isInt right_zero
      exact ⟨id, .add, droppedId, 0, same, .inl ⟨rfl, rfl⟩⟩
    · split at found
      · rename_i left_zero
        cases found
        obtain ⟨droppedId, same⟩ := eq_literal_of_isInt left_zero
        exact ⟨id, .add, droppedId, 0, same, .inr ⟨rfl, rfl⟩⟩
      · cases found
  · rename_i id left right
    split at found
    · rename_i right_zero
      cases found
      obtain ⟨droppedId, same⟩ := eq_literal_of_isInt right_zero
      exact ⟨id, .sub, droppedId, 0, same, .inl ⟨rfl, rfl⟩⟩
    · cases found
  · rename_i id left right
    split at found
    · rename_i right_one
      cases found
      obtain ⟨droppedId, same⟩ := eq_literal_of_isInt right_one
      exact ⟨id, .mul, droppedId, 1, same, .inl ⟨rfl, rfl⟩⟩
    · split at found
      · rename_i left_one
        cases found
        obtain ⟨droppedId, same⟩ := eq_literal_of_isInt left_one
        exact ⟨id, .mul, droppedId, 1, same, .inr ⟨rfl, rfl⟩⟩
      · cases found
  · cases found

/-- What it means for a scalar rule to be made of steps. -/
abbrev Rule.IsStep (environment : Environment) (rule : ScalarRule) (declines : Scalar → Prop) : Prop :=
  Conforms environment rule false declines fun constraints session current node constraint after =>
    Step environment constraints session.supply current node constraint after.supply

theorem inlineConstantParameter_isStep (environment : Environment) :
    Rule.IsStep environment inlineConstantParameter fun node => inlined? environment node = none := by
  intro call session same matched
  subst same
  have isParameter := (Pattern.mem_allMatches_operator.mp matched).1
  dsimp only [inlineConstantParameter]
  cases shape : call.current with
  | parameter id symbol =>
    dsimp only
    split
    · rename_i varies
      have notConstant : call.environment.constants.contains symbol = false := by simpa using varies
      exact .pure (.nothing (Nat.le_refl _) (if_neg (Bool.eq_false_iff.mp notConstant)))
    · rename_i constant
      have isConstant : call.environment.constants.contains symbol = true := by simpa using constant
      split
      · rename_i value found
        exact .bind (.of_eq rfl (.pure (.only (.inlined isConstant found))))
      · rename_i unbound
        exact .pure (.nothing (Nat.le_refl _)
          ((if_pos isConstant).trans (Option.eq_none_iff_forall_ne_some.mpr unbound)))
  | literal | column => cases shape ▸ isParameter
  | call _ function => cases function <;> cases shape ▸ isParameter

theorem eq_field_of_kind {scalar child : Scalar} (same : scalar.kind = .field) (single : scalar.children = [child]) :
    ∃ id position, scalar = .call id (.field position) [child] := by
  cases scalar with
  | call id function arguments =>
    cases function with
    | field position => exact ⟨id, position, congrArg _ single⟩
    | _ => cases same
  | literal | column | parameter => cases same

theorem composeFieldOverRecord_isStep (environment : Environment) :
    Rule.IsStep environment composeFieldOverRecord fun node => selected? node = none := by
  intro call session same matched
  subst same
  obtain ⟨isField, child, single, below⟩ := Pattern.mem_allMatches_exactly_one.mp matched
  obtain ⟨isRecord, bound⟩ := Pattern.mem_allMatches_operator.mp below
  obtain ⟨recordId, components, rfl⟩ := eq_record_of_kind isRecord
  obtain ⟨id, position, shape⟩ := eq_field_of_kind isField single
  have found : call.bindings.get? "record" = some (.call recordId .record components) := by
    rw [bound]
    exact Bindings.get?_bind_same _ rfl
  have carried := call.carries_carried [.call recordId .record components]
  dsimp only [composeFieldOverRecord]
  rw [shape, Call.get_of_bound found]
  dsimp only [pure_bind, children]
  rw [pure_bind]
  split
  · rename_i component selected
    exact .pure (.only (.selected selected carried))
  · rename_i unbound
    exact .pure (.nothing (Nat.le_refl _) (Option.eq_none_iff_forall_ne_some.mpr unbound))

theorem eq_call_of_isUnaryOverLiteral {scalar : Scalar} (matched : scalar.isUnaryOverLiteral = true) :
    ∃ id function operandId operand, scalar = .call id function [.literal operandId operand] := by
  unfold isUnaryOverLiteral at matched
  split at matched
  · rename_i id function argument
    obtain ⟨operand, found⟩ := Option.isSome_iff_exists.mp (Bool.and_eq_true_iff.mp matched).2
    obtain ⟨operandId, rfl⟩ := eq_literal_of_asLiteral? found
    exact ⟨id, function, operandId, operand, rfl⟩
  · cases matched

theorem foldUnaryLiteral_isStep (environment : Environment) :
    Rule.IsStep environment foldUnaryLiteral fun node => folded? node = none := by
  intro call session same matched
  subst same
  obtain ⟨isUnary, -⟩ := Pattern.mem_allMatches_filter.mp matched
  obtain ⟨id, function, operandId, operand, shape⟩ := eq_call_of_isUnaryOverLiteral isUnary
  have carried := call.carries_carried [.literal operandId operand]
  dsimp only [foldUnaryLiteral]
  rw [shape]
  dsimp only [asLiteral?, Option.bind_some]
  split
  · rename_i value evaluated
    exact .bind (.of_eq rfl (.pure (.only (.foldedUnary evaluated carried))))
  · rename_i unfolded
    exact .pure (.nothing (Nat.le_refl _) (Option.eq_none_iff_forall_ne_some.mpr unfolded))

theorem eq_call_of_isArithmeticOverLiterals {scalar : Scalar} (matched : scalar.isArithmeticOverLiterals = true) :
    ∃ id function leftId left rightId right,
      scalar = .call id function [.literal leftId left, .literal rightId right] := by
  obtain ⟨isBinary, literals⟩ := Bool.and_eq_true_iff.mp matched
  unfold isArithmetic at isBinary
  split at isBinary
  · rename_i id function first second
    have all := List.all_eq_true.mp literals
    obtain ⟨left, isLeft⟩ := Option.isSome_iff_exists.mp (all first (List.mem_cons_self ..))
    obtain ⟨right, isRight⟩ := Option.isSome_iff_exists.mp (all second (by simp [children]))
    obtain ⟨leftId, rfl⟩ := eq_literal_of_asLiteral? isLeft
    obtain ⟨rightId, rfl⟩ := eq_literal_of_asLiteral? isRight
    exact ⟨id, function, leftId, left, rightId, right, rfl⟩
  · cases isBinary

theorem foldBinaryLiterals_isStep (environment : Environment) :
    Rule.IsStep environment foldBinaryLiterals fun node => folded? node = none := by
  intro call session same matched
  subst same
  obtain ⟨isBinary, -⟩ := Pattern.mem_allMatches_filter.mp matched
  obtain ⟨id, function, leftId, left, rightId, right, shape⟩ := eq_call_of_isArithmeticOverLiterals isBinary
  have carried := call.carries_carried [.literal leftId left, .literal rightId right]
  dsimp only [foldBinaryLiterals]
  rw [shape]
  dsimp only [asLiteral?]
  split
  · rename_i value evaluated
    exact .bind (.of_eq rfl (.pure (.only (.foldedBinary evaluated carried))))
  · rename_i unfolded
    exact .pure (.nothing (Nat.le_refl _) (Option.eq_none_iff_forall_ne_some.mpr unfolded))

theorem eliminateArithmeticIdentity_isStep (environment : Environment) :
    Rule.IsStep environment eliminateArithmeticIdentity fun node => keptAndDropped? node = none := by
  intro call session same _
  subst same
  dsimp only [eliminateArithmeticIdentity]
  split
  · rename_i kept dropped found
    have carried := call.carries_carried [dropped]
    refine .pure (.only ?_)
    obtain ⟨id, function, droppedId, neutral, rfl, shape⟩ := keptAndDropped?_cases found
    rcases shape with ⟨identity, whole⟩ | ⟨identity, whole⟩
    · rw [whole]
      exact .rightDropped identity carried
    · rw [whole]
      exact .leftDropped identity carried
  · rename_i none
    exact .pure (.nothing (Nat.le_refl _) (Option.eq_none_iff_forall_ne_some.mpr fun pair => none pair.1 pair.2))

/-- Every scalar rule makes steps and nothing else. -/
theorem isStep_of_mem_allRules (environment : Environment) {rule : ScalarRule} (member : rule ∈ allRules) :
    Rule.IsStep environment rule fun _ => True := by
  simp only [allRules, List.mem_cons, List.not_mem_nil, or_false] at member
  rcases member with rfl | rfl | rfl | rfl | rfl
  · exact (inlineConstantParameter_isStep environment).declining fun _ _ => trivial
  · exact (composeFieldOverRecord_isStep environment).declining fun _ _ => trivial
  · exact (foldUnaryLiteral_isStep environment).declining fun _ _ => trivial
  · exact (foldBinaryLiterals_isStep environment).declining fun _ _ => trivial
  · exact (eliminateArithmeticIdentity_isStep environment).declining fun _ _ => trivial

/-- The default set has all rules in the order in which they are added. -/
theorem defaultRules_eq : defaultRules = .ok ⟨allRules⟩ := by
  refine RuleSetBuilder.build_of_addedInOrder defaultRuleBuilder ?_
  intro entry present dependency member
  simp only [defaultRuleBuilder, RuleSetBuilder.add, RuleSetBuilder.addAfter, RuleSetBuilder.empty,
    List.nil_append, List.cons_append, List.zipIdx_cons, List.zipIdx_nil, List.mem_cons,
    List.not_mem_nil, or_false] at present
  rcases present with rfl | rfl | rfl | rfl | rfl
  case inr.inr.inr.inr =>
    obtain rfl := List.mem_singleton.mp member
    exact ⟨3, by decide, rfl⟩
  all_goals cases member

theorem weightEach_eq (scalars : List Scalar) : weightEach scalars = totalOf weight scalars := by
  induction scalars with
  | nil => rfl
  | cons scalar rest ih => simp only [weightEach, totalOf, ih]

section Step
variable {environment : Environment} {constraints : Table Scalar Constraint} {supply later : Supply}
variable {current node : Scalar} {constraint : Constraint}

theorem Step.lighter (step : Step environment constraints supply current node constraint later) :
    node.weight < current.weight := by
  cases step with
  | inlined => simp [weight]
  | selected found =>
    have part := le_totalOf weight (List.mem_of_getElem? found)
    simp only [weight, weightEach, weightEach_eq]
    omega
  | foldedUnary | foldedBinary => simp [weight, weightEach]
  | rightDropped | leftDropped =>
    simp only [weight, weightEach]
    omega

theorem Step.allocates (step : Step environment constraints supply current node constraint later) :
    supply.allocated ≤ later.allocated := by
  cases step <;> simp [Supply.draw]

/-- The replacement can exist beside the nodes there are. -/
theorem Step.joins (step : Step environment constraints supply current node constraint later)
    {nodes : Set Scalar} (arena : Arena nodes supply) (present : current ∈ nodes) :
    Arena (insert node nodes) later := by
  have descendant (kept child : Scalar) (member : child ∈ nodes) (below : kept ∈ Tree.children child) :
      Arena (insert kept nodes) supply := by
    rw [Set.insert_eq_of_mem (arena.closed child member kept below)]
    exact arena
  cases step with
  | inlined | foldedUnary | foldedBinary => exact arena.insert rfl (by intro child below; cases below)
  | selected found =>
    exact descendant _ _ (arena.closed _ present _ (List.mem_singleton_self _)) (List.mem_of_getElem? found)
  | rightDropped => exact descendant _ _ present (List.mem_cons_self ..)
  | leftDropped => exact descendant _ _ present (by simp [Tree.children, children])

end Step

/-- What the driver's call of a scalar rule comes to. -/
theorem callRule_step (environment : Environment) {rules : List ScalarRule} (among : rules ⊆ allRules)
    (ledger : Ledger Scalar Unit) (root current : Scalar) {application : ScalarRule × Bindings Scalar}
    (member : application ∈ applications ⟨rules⟩ current) :
    Returns (callRule environment application.1 root current application.2) ledger fun yielded? after =>
      (∃ session, yielded? = none ∧ after = { ledger with toSession := session } ∧
        ledger.supply.allocated ≤ session.supply.allocated) ∨
      ∃ node constraint session, yielded? = some ⟨node, false⟩ ∧
        after = ledger.yielded session current node constraint ∧
        Step environment ledger.constraints ledger.supply current node constraint session.supply := by
  obtain ⟨⟨isRule, -⟩, matched⟩ := mem_applications.mp member
  refine ((isStep_of_mem_allRules environment (among isRule)).callRule root matched ledger).imp ?_
  intro yielded? after ended
  rcases ended with ⟨session, none, same, more, -⟩ | taken
  · exact .inl ⟨session, none, same, more⟩
  · exact .inr taken

theorem weight_additive : Additive weight := by
  intro node mapped id size
  cases node with
  | call => simp only [Tree.copyOver, copyOver, Tree.children, children, weight, weightEach_eq]; omega
  | literal | column | parameter =>
    obtain rfl := List.length_eq_zero_iff.mp size
    rfl

/-- Simplification of a scalar comes to an end, whatever the scalar and whichever of the rules are used. -/
theorem simplify_lightened_of_subset (environment : Environment) {rules : List ScalarRule}
    (among : rules ⊆ allRules) (scalar : Scalar) (session : Session Unit) :
    Returns (simplify (setting environment ⟨rules⟩) scalar) session fun simplified after =>
      session.supply.allocated ≤ after.supply.allocated ∧ Lightened weight scalar simplified.value := by
  refine simplify_lightens (setting environment ⟨rules⟩) weight_additive rfl ?_ scalar session
  intro ledger root current application member
  refine (callRule_step environment among ledger root current member).imp ?_
  intro yielded? after ended
  rcases ended with ⟨later, rfl, rfl, more⟩ | ⟨node, constraint, later, rfl, rfl, step⟩
  · exact ⟨more, by simp⟩
  · refine ⟨step.allocates, ?_⟩
    rintro yielded ⟨⟩
    exact ⟨rfl, step.lighter⟩

theorem simplify_lightened (environment : Environment) (scalar : Scalar) (session : Session Unit) :
    Returns (simplify (setting environment ⟨allRules⟩) scalar) session fun simplified after =>
      session.supply.allocated ≤ after.supply.allocated ∧ Lightened weight scalar simplified.value :=
  simplify_lightened_of_subset environment (List.Subset.refl _) scalar session

/-- What is known of a simplification that was found to return. -/
theorem lightened_of_simplify {environment : Environment} {scalar : Scalar} {supply later : Supply}
    {simplified : Constrained Scalar}
    (found : simplify (setting environment ⟨allRules⟩) scalar ⟨supply, ()⟩ = .ok simplified ⟨later, ()⟩) :
    supply.allocated ≤ later.allocated ∧ Lightened weight scalar simplified.value :=
  (simplify_lightened environment scalar ⟨supply, ()⟩).at_ok found

end Scalar
end QueryOptimizer
