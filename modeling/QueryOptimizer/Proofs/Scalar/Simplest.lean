import QueryOptimizer.Proofs.Scalar.Contract
import QueryOptimizer.Proofs.Simplification.Canonical

/-!
The simplest form of scalar expressions, as a function of the expression and the environment. Wherever two rules
apply to one node they lead to the same form, so that simplification computes it with the rules in any order.
-/
namespace QueryOptimizer

namespace ScalarFunction

theorem isUnaryArithmetic_of_evalUnary? {function : ScalarFunction} {operand value : Literal}
    (evaluated : function.evalUnary? operand = some value) : function.isUnaryArithmetic = true := by
  cases function <;> cases operand <;> first | rfl | cases evaluated

theorem isBinaryArithmetic_of_evalBinary? {function : ScalarFunction} {left right value : Literal}
    (evaluated : function.evalBinary? left right = some value) : function.isBinaryArithmetic = true := by
  cases function <;> cases left <;> cases right <;> first | rfl | cases evaluated

end ScalarFunction

namespace Scalar

/-- What one of the rules makes of a node. -/
def reduce? (environment : Environment) (scalar : Scalar) : Option Scalar :=
  (inlined? environment scalar <|> folded? scalar).map (literal ⟨0⟩) <|> selected? scalar <|>
    (keptAndDropped? scalar).map Prod.fst

def reduced (environment : Environment) (scalar : Scalar) : Scalar :=
  (reduce? environment scalar).getD scalar

/-- No rule has anything to do at the node. -/
def Plain (environment : Environment) (scalar : Scalar) : Prop :=
  reduce? environment scalar = none

mutual

/-- The simplest form of the scalar, with the same identity in all of its nodes. -/
def simplest (environment : Environment) : Scalar → Scalar
  | literal _ value => literal ⟨0⟩ value
  | column _ quantifier name => column ⟨0⟩ quantifier name
  | parameter _ symbol => reduced environment (parameter ⟨0⟩ symbol)
  | call _ function arguments => reduced environment (call ⟨0⟩ function (simplestEach environment arguments))

def simplestEach (environment : Environment) : List Scalar → List Scalar
  | [] => []
  | scalar :: rest => simplest environment scalar :: simplestEach environment rest

end

variable {environment : Environment}

theorem simplestEach_eq_map (scalars : List Scalar) :
    simplestEach environment scalars = scalars.map (simplest environment) := by
  induction scalars with
  | nil => rfl
  | cons scalar rest ih => rw [simplestEach, ih, List.map_cons]

theorem reduce?_bare (scalar : Scalar) : reduce? environment scalar.bare = (reduce? environment scalar).map bare := by
  simp only [reduce?, inlined?_bare, folded?_bare, selected?_bare, keptAndDropped?_bare]
  cases inlined? environment scalar with
  | some value => rfl
  | none =>
    cases folded? scalar with
    | some value => rfl
    | none =>
      cases selected? scalar with
      | some component => rfl
      | none => cases keptAndDropped? scalar <;> rfl

theorem reduced_bare (scalar : Scalar) : reduced environment scalar.bare = (reduced environment scalar).bare := by
  rw [reduced, reduced, reduce?_bare]
  cases reduce? environment scalar <;> rfl

mutual

theorem bare_simplest (scalar : Scalar) : (simplest environment scalar).bare = simplest environment scalar := by
  cases scalar with
  | literal | column => rfl
  | parameter => rw [simplest, ← reduced_bare, bare]
  | call id function arguments => rw [simplest, ← reduced_bare, bare, bareEach_simplestEach]

theorem bareEach_simplestEach (scalars : List Scalar) :
    bareEach (simplestEach environment scalars) = simplestEach environment scalars := by
  cases scalars with
  | nil => rfl
  | cons scalar rest => rw [simplestEach, bareEach, bare_simplest scalar, bareEach_simplestEach rest]

end

mutual

theorem simplest_bare (scalar : Scalar) : simplest environment scalar.bare = simplest environment scalar := by
  cases scalar with
  | call id function arguments => rw [bare, simplest, simplest, simplestEach_bareEach]
  | literal | column | parameter => rfl

theorem simplestEach_bareEach (scalars : List Scalar) :
    simplestEach environment (bareEach scalars) = simplestEach environment scalars := by
  cases scalars with
  | nil => rfl
  | cons scalar rest => rw [bareEach, simplestEach, simplestEach, simplest_bare scalar, simplestEach_bareEach rest]

end

/-- A scalar of plain nodes is its own simplest form. -/
theorem simplest_of_plain {scalar : Scalar} (plain : Throughout (Plain environment) scalar) :
    simplest environment scalar = scalar.bare := by
  induction scalar using Tree.childInduction with
  | step scalar ih =>
    obtain ⟨here, below⟩ := throughout_iff.mp plain
    have kept : reduced environment scalar.bare = scalar.bare := by
      rw [reduced_bare, reduced, here]
      rfl
    cases scalar with
    | literal | column => rfl
    | parameter => exact kept
    | call id function arguments =>
      have alike : arguments.map (simplest environment) = arguments.map bare :=
        List.map_congr_left fun argument member => ih argument member (below argument member)
      rw [simplest, simplestEach_eq_map, alike, ← bareEach_eq_map]
      exact kept

/-- A scalar that became lighter, if it became anything else, stayed what it was if and only if it was in its simplest
form. -/
theorem sameNode_iff_simplest {nodes : Set Scalar} {supply : Supply} {scalar value : Scalar}
    (arena : Arena nodes supply) (present : scalar ∈ nodes) (joined : value ∈ nodes) (plain : Throughout (Plain environment) value)
    (same : value.simplest environment = scalar.simplest environment) (lightened : Lightened weight scalar value) :
    sameNode scalar value = true ↔ scalar.simplest environment = scalar.bare := by
  constructor
  · intro kept
    obtain rfl := arena.distinct _ present _ joined (sameNode_iff.mp kept)
    exact simplest_of_plain plain
  · intro settled
    have form : value.bare = scalar.bare := (simplest_of_plain plain).symm.trans (same.trans settled)
    have heavy : value.weight = scalar.weight := by rw [← weight_bare, form, weight_bare]
    rcases lightened with rfl | lower
    · exact sameNode_iff.mpr rfl
    · omega

theorem simplest_composed : Composed (simplest environment) := by
  intro node mapped id alike
  cases node with
  | call _ function arguments =>
    show simplest environment (.call id function mapped) = _
    rw [simplest, simplest, simplestEach_eq_map, simplestEach_eq_map, map_eq_of_alike alike]
    rfl
  | literal | column | parameter => rfl

/-! Two rules at one node -/

theorem exactBinary?_of_rightIdentity {function : ScalarFunction} {neutral : Int64}
    (identity : RightIdentity function neutral) (operand : Int) :
    function.exactBinary? operand neutral.toInt = some operand := by
  cases function with
  | add =>
    obtain rfl : neutral = 0 := identity
    exact congrArg some (Int.add_zero operand)
  | sub =>
    obtain rfl : neutral = 0 := identity
    exact congrArg some (Int.sub_zero operand)
  | mul =>
    obtain rfl : neutral = 1 := identity
    exact congrArg some (Int.mul_one operand)
  | neg | abs | record | field => cases identity

theorem exactBinary?_of_leftIdentity {function : ScalarFunction} {neutral : Int64}
    (identity : LeftIdentity function neutral) (operand : Int) :
    function.exactBinary? neutral.toInt operand = some operand := by
  cases function with
  | add =>
    obtain rfl : neutral = 0 := identity
    exact congrArg some (Int.zero_add operand)
  | mul =>
    obtain rfl : neutral = 1 := identity
    exact congrArg some (Int.one_mul operand)
  | neg | abs | sub | record | field => cases identity

/-- Folding an operation on an identity gives the operand that dropping the identity keeps. -/
theorem RightIdentity.evalBinary? {function : ScalarFunction} {neutral : Int64} {operand value : Literal}
    (identity : RightIdentity function neutral)
    (evaluated : function.evalBinary? operand (.int neutral) = some value) : value = operand := by
  have arithmetic := ScalarFunction.isBinaryArithmetic_of_evalBinary? evaluated
  cases operand with
  | null =>
    rw [ScalarFunction.evalBinary?, if_pos arithmetic] at evaluated
    exact (Option.some.inj evaluated).symm
  | int operand =>
    rw [ScalarFunction.evalBinary?, exactBinary?_of_rightIdentity identity, Option.bind_some,
      Integer64.ofInt?_toInt] at evaluated
    exact (Option.some.inj evaluated).symm
  | bool | string => cases evaluated

theorem LeftIdentity.evalBinary? {function : ScalarFunction} {neutral : Int64} {operand value : Literal}
    (identity : LeftIdentity function neutral)
    (evaluated : function.evalBinary? (.int neutral) operand = some value) : value = operand := by
  have arithmetic := ScalarFunction.isBinaryArithmetic_of_evalBinary? evaluated
  cases operand with
  | null =>
    rw [ScalarFunction.evalBinary?, if_pos arithmetic] at evaluated
    exact (Option.some.inj evaluated).symm
  | int operand =>
    rw [ScalarFunction.evalBinary?, exactBinary?_of_leftIdentity identity, Option.bind_some,
      Integer64.ofInt?_toInt] at evaluated
    exact (Option.some.inj evaluated).symm
  | bool | string => cases evaluated

theorem keptAndDropped?_of_rightIdentity {function : ScalarFunction} {neutral : Int64} {id droppedId : NodeId}
    {kept : Scalar} (identity : RightIdentity function neutral) :
    keptAndDropped? (.call id function [kept, .literal droppedId (.int neutral)]) =
      some (kept, .literal droppedId (.int neutral)) := by
  have dropped : isInt (.literal droppedId (.int neutral)) neutral = true := decide_eq_true rfl
  cases function with
  | add | sub =>
    obtain rfl : neutral = 0 := identity
    rw [keptAndDropped?, if_pos dropped]
  | mul =>
    obtain rfl : neutral = 1 := identity
    rw [keptAndDropped?, if_pos dropped]
  | neg | abs | record | field => cases identity

/-- If both operands are the identity, then it is the left one that is kept. -/
theorem keptAndDropped?_of_leftIdentity {function : ScalarFunction} {neutral : Int64} {id droppedId : NodeId}
    {kept : Scalar} (identity : LeftIdentity function neutral) :
    keptAndDropped? (.call id function [.literal droppedId (.int neutral), kept]) =
      if kept.isInt neutral then some (.literal droppedId (.int neutral), kept)
      else some (kept, .literal droppedId (.int neutral)) := by
  have dropped : isInt (.literal droppedId (.int neutral)) neutral = true := decide_eq_true rfl
  cases function with
  | add =>
    obtain rfl : neutral = 0 := identity
    rw [keptAndDropped?, if_pos dropped]
  | mul =>
    obtain rfl : neutral = 1 := identity
    rw [keptAndDropped?, if_pos dropped]
  | neg | abs | sub | record | field => cases identity

theorem reduced_of_folded {id : NodeId} {function : ScalarFunction} {arguments : List Scalar} {value : Literal}
    (found : folded? (.call id function arguments) = some value) :
    reduced environment (.call id function arguments) = .literal ⟨0⟩ value := by
  rw [reduced, reduce?, found]
  rfl

theorem reduced_of_evalUnary? {id operandId : NodeId} {function : ScalarFunction} {operand value : Literal}
    (evaluated : function.evalUnary? operand = some value) :
    reduced environment (.call id function [.literal operandId operand]) = .literal ⟨0⟩ value :=
  reduced_of_folded (show folded? (.call id function [.literal operandId operand]) = some value from evaluated)

theorem reduced_of_evalBinary? {id leftId rightId : NodeId} {function : ScalarFunction} {left right value : Literal}
    (evaluated : function.evalBinary? left right = some value) :
    reduced environment (.call id function [.literal leftId left, .literal rightId right]) = .literal ⟨0⟩ value :=
  reduced_of_folded
    (show folded? (.call id function [.literal leftId left, .literal rightId right]) = some value from evaluated)

theorem reduced_of_selected {id recordId : NodeId} {position : Nat} {components : List Scalar} {component : Scalar}
    (selected : components[position]? = some component) :
    reduced environment (.call id (.field position) [.call recordId .record components]) = component := by
  have selects : selected? (.call id (.field position) [.call recordId .record components]) = some component :=
    selected
  rw [reduced, reduce?, selects]
  rfl

/-- An operation on two operands that is not folded can only lose an identity. -/
theorem reduced_of_binary {id : NodeId} {function : ScalarFunction} {left right : Scalar}
    (unfolded : folded? (.call id function [left, right]) = none) :
    reduced environment (.call id function [left, right]) =
      ((keptAndDropped? (.call id function [left, right])).map Prod.fst).getD (.call id function [left, right]) := by
  have unselected : selected? (.call id function [left, right]) = none := by
    cases function <;> rfl
  rw [reduced, reduce?, unfolded, unselected]
  rfl

/-- A bare constant is determined by its value. -/
theorem eq_literal_of_bare {scalar : Scalar} {value : Literal} (isBare : scalar.bare = scalar)
    (found : scalar.asLiteral? = some value) : scalar = .literal ⟨0⟩ value := by
  obtain ⟨id, rfl⟩ := eq_literal_of_asLiteral? found
  exact isBare.symm

theorem reduced_of_rightIdentity {function : ScalarFunction} {neutral : Int64} {kept : Scalar}
    (identity : RightIdentity function neutral) (isBare : kept.bare = kept) :
    reduced environment (.call ⟨0⟩ function [kept, .literal ⟨0⟩ (.int neutral)]) = kept := by
  cases found : folded? (.call ⟨0⟩ function [kept, .literal ⟨0⟩ (.int neutral)]) with
  | some value =>
    obtain ⟨operand, isOperand, evaluated⟩ := Option.bind_eq_some_iff.mp found
    rw [reduced_of_folded found, eq_literal_of_bare isBare isOperand, identity.evalBinary? evaluated]
  | none =>
    rw [reduced_of_binary found, keptAndDropped?_of_rightIdentity identity]
    rfl

theorem reduced_of_leftIdentity {function : ScalarFunction} {neutral : Int64} {kept : Scalar}
    (identity : LeftIdentity function neutral) (isBare : kept.bare = kept) :
    reduced environment (.call ⟨0⟩ function [.literal ⟨0⟩ (.int neutral), kept]) = kept := by
  cases found : folded? (.call ⟨0⟩ function [.literal ⟨0⟩ (.int neutral), kept]) with
  | some value =>
    obtain ⟨operand, isOperand, evaluated⟩ := Option.bind_eq_some_iff.mp found
    rw [reduced_of_folded found, eq_literal_of_bare isBare isOperand, identity.evalBinary? evaluated]
  | none =>
    rw [reduced_of_binary found, keptAndDropped?_of_leftIdentity identity]
    split
    · rename_i both
      exact (eq_literal_of_bare isBare (of_decide_eq_true both)).symm
    · rfl

theorem simplest_record {id : NodeId} {components : List Scalar} :
    simplest environment (.call id .record components) = .call ⟨0⟩ .record (simplestEach environment components) := by
  have unfolded : folded? (.call ⟨0⟩ .record (simplestEach environment components)) = none := by
    rw [Option.eq_none_iff_forall_ne_some]
    intro value found
    match components with
    | [] | _ :: _ :: _ :: _ => cases found
    | [_] =>
      obtain ⟨operand, -, evaluated⟩ := Option.bind_eq_some_iff.mp found
      cases ScalarFunction.isUnaryArithmetic_of_evalUnary? evaluated
    | [_, _] =>
      obtain ⟨left, -, more⟩ := Option.bind_eq_some_iff.mp found
      obtain ⟨right, -, evaluated⟩ := Option.bind_eq_some_iff.mp more
      cases ScalarFunction.isBinaryArithmetic_of_evalBinary? evaluated
  rw [simplest, reduced, reduce?, unfolded]
  rfl

theorem simplest_of_constant {id : NodeId} {symbol : Alias} {value : Literal}
    (constant : environment.constants.contains symbol = true)
    (found : environment.parameters.get? symbol = some value) :
    simplest environment (.parameter id symbol) = .literal ⟨0⟩ value := by
  have inlines : inlined? environment (.parameter ⟨0⟩ symbol) = some value := (if_pos constant).trans found
  rw [simplest, reduced, reduce?, inlines]
  rfl

/-- No replacement changes the simplest form. -/
theorem Step.simplest {constraints : Table Scalar Constraint} {supply later : Supply} {current node : Scalar}
    {constraint : Constraint} (step : Step environment constraints supply current node constraint later) :
    node.simplest environment = current.simplest environment := by
  cases step with
  | inlined constant found => exact (simplest_of_constant constant found).symm
  | selected found =>
    rw [Scalar.simplest, simplestEach, simplestEach, simplest_record, reduced_of_selected]
    rw [simplestEach_eq_map, List.getElem?_map, found]
    rfl
  | foldedUnary evaluated => exact (reduced_of_evalUnary? evaluated).symm
  | foldedBinary evaluated => exact (reduced_of_evalBinary? evaluated).symm
  | rightDropped identity => exact (reduced_of_rightIdentity identity (bare_simplest _)).symm
  | leftDropped identity => exact (reduced_of_leftIdentity identity (bare_simplest _)).symm

/-! Whatever a rule has to do, it is offered -/

theorem kind_of_inlined? {scalar : Scalar} {value : Literal} (found : inlined? environment scalar = some value) :
    scalar.kind = .parameter := by
  cases scalar with
  | parameter => rfl
  | literal | column | call => cases found

theorem overRecord_of_selected? {scalar component : Scalar} (found : selected? scalar = some component) :
    scalar.kind = .field ∧ ∃ record, scalar.children = [record] ∧ record.kind = .record := by
  unfold selected? at found
  split at found
  · rename_i id position argument
    split at found
    · rename_i isRecord
      exact ⟨rfl, argument, rfl, isRecord⟩
    · cases found
  · cases found

theorem overLiterals_of_folded? {scalar : Scalar} {value : Literal} (found : folded? scalar = some value) :
    scalar.isUnaryOverLiteral = true ∨ scalar.isArithmeticOverLiterals = true := by
  unfold folded? at found
  split at found
  · rename_i id function argument
    obtain ⟨operand, isOperand, evaluated⟩ := Option.bind_eq_some_iff.mp found
    have unary := ScalarFunction.isUnaryArithmetic_of_evalUnary? evaluated
    exact .inl (by simp [isUnaryOverLiteral, unary, isLiteral, isOperand])
  · rename_i id function first second
    obtain ⟨left, isLeft, more⟩ := Option.bind_eq_some_iff.mp found
    obtain ⟨right, isRight, evaluated⟩ := Option.bind_eq_some_iff.mp more
    have binary := ScalarFunction.isBinaryArithmetic_of_evalBinary? evaluated
    exact .inr (by simp [isArithmeticOverLiterals, isArithmetic, binary, children, isLiteral, isLeft, isRight])
  · cases found

theorem isArithmetic_of_keptAndDropped? {scalar kept dropped : Scalar}
    (found : keptAndDropped? scalar = some (kept, dropped)) : scalar.isArithmetic = true := by
  obtain ⟨id, function, _, _, rfl, ⟨identity, rfl⟩ | ⟨identity, rfl⟩⟩ := keptAndDropped?_cases found
  · cases function <;> first | rfl | cases identity
  · cases function <;> first | rfl | cases identity

section Idle
variable {W : Type} {rules : List ScalarRule} {fits : W → Ledger Scalar Unit → Prop} {keeps : W → Scalar → Prop}
variable {node : Scalar}

/-- At a node at which all rules are idle, none of them has anything to do. -/
theorem plain_of_idle (all : allRules ⊆ rules) (idle : Idle (setting environment ⟨rules⟩) fits keeps node)
    (different : ∀ world ledger replacement constraint after, fits world ledger → keeps world node →
      Step environment ledger.constraints ledger.supply node replacement constraint after →
        ¬ sameNode replacement node = true) : Plain environment node := by
  have declines (rule : ScalarRule) {bindings : Bindings Scalar} {declined : Scalar → Prop}
      (isRule : rule ∈ allRules) (conforms : Rule.IsStep environment rule declined)
      (offered : rule.rootOperator?.all (· = node.kind) = true)
      (matched : bindings ∈ rule.pattern.allMatches .empty node) : declined node :=
    idle.declines (all isRule) offered matched conforms fun _ _ _ _ _ fit keep step => different _ _ _ _ _ fit keep step
  have varies : inlined? environment node = none := by
    by_contra inlines
    obtain ⟨value, found⟩ := Option.ne_none_iff_exists'.mp inlines
    have isParameter := kind_of_inlined? found
    exact inlines (declines inlineConstantParameter (by simp [allRules]) (inlineConstantParameter_isStep environment)
      (by simp [inlineConstantParameter, isParameter]) (Pattern.mem_allMatches_operator.mpr ⟨isParameter, rfl⟩))
  have unfolded : folded? node = none := by
    by_contra folds
    obtain ⟨value, found⟩ := Option.ne_none_iff_exists'.mp folds
    rcases overLiterals_of_folded? found with unary | binary
    · exact folds (declines foldUnaryLiteral (by simp [allRules]) (foldUnaryLiteral_isStep environment) rfl
        (Pattern.mem_allMatches_filter.mpr ⟨unary, rfl⟩))
    · exact folds (declines foldBinaryLiterals (by simp [allRules]) (foldBinaryLiterals_isStep environment) rfl
        (Pattern.mem_allMatches_filter.mpr ⟨binary, rfl⟩))
  have unselected : selected? node = none := by
    by_contra selects
    obtain ⟨component, found⟩ := Option.ne_none_iff_exists'.mp selects
    obtain ⟨isField, record, single, isRecord⟩ := overRecord_of_selected? found
    exact selects (declines composeFieldOverRecord (by simp [allRules]) (composeFieldOverRecord_isStep environment)
      (by simp [composeFieldOverRecord, isField]) (Pattern.mem_allMatches_exactly_one.mpr ⟨isField, record, single,
        Pattern.mem_allMatches_operator.mpr ⟨isRecord, rfl⟩⟩))
  have keeps : keptAndDropped? node = none := by
    by_contra drops
    obtain ⟨⟨kept, dropped⟩, found⟩ := Option.ne_none_iff_exists'.mp drops
    exact drops (declines eliminateArithmeticIdentity (by simp [allRules])
      (eliminateArithmeticIdentity_isStep environment) rfl
      (Pattern.mem_allMatches_filter.mpr ⟨isArithmetic_of_keptAndDropped? found, rfl⟩))
  rw [Plain, reduce?, varies, unfolded, unselected, keeps]
  rfl

end Idle

/-- With the rules in any order, simplification comes to the simplest form. -/
theorem simplify_simplest (environment : Environment) {rules : List ScalarRule}
    (same : ∀ rule, rule ∈ rules ↔ rule ∈ allRules) {nodes : Set Scalar} {scalar : Scalar}
    {session : Session Unit} (arena : Settled nodes session) (present : scalar ∈ nodes) :
    Returns (simplify (setting environment ⟨rules⟩) scalar) session fun simplified after =>
      ∃ wider, nodes ⊆ wider ∧ Settled wider after ∧ simplified.value ∈ wider ∧
        Throughout (Plain environment) simplified.value ∧ simplified.value.bare = simplest environment scalar := by
  refine (simplify_reaches arena_habitat (simplest environment) (Plain environment) simplest_composed ?_ ?_
    arena present).imp ?_
  · intro nodes ledger root current arena present _ application member
    refine (callRule_step environment (fun _ => (same _).mp) ledger root current member).imp ?_
    rintro yielded? after (⟨session, rfl, rfl, more⟩ | ⟨node, constraint, session, rfl, rfl, step⟩)
    · exact ⟨nodes, subset_rfl, arena.mono more, nofun⟩
    · refine ⟨insert node nodes, Set.subset_insert _ _, step.joins arena present, ?_⟩
      rintro yielded ⟨⟩
      exact ⟨rfl, Set.mem_insert _ _, step.simplest, step.derived.down, step.lighter⟩
  · intro node _ idle
    refine plain_of_idle (fun _ => (same _).mpr) idle ?_
    intro nodes ledger replacement constraint after arena present step
    exact step.derived.builtOver.different arena present
  · rintro simplified after ⟨wider, included, settles, known, plain, form⟩
    exact ⟨wider, included, settles, known, plain, (simplest_of_plain plain).symm.trans form⟩

end Scalar
end QueryOptimizer
