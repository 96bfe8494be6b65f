import QueryOptimizer.Proofs.Expression.Bare
import QueryOptimizer.Proofs.Rule.Form
import QueryOptimizer.Proofs.Scalar.Step

/-!
Scalar expressions without identities. What the rules look at in an expression, and what they make of it, is the same
without identities, and so the rules cannot tell apart expressions that are structurally equal.
-/
namespace QueryOptimizer.Scalar

theorem bareEach_eq_map (scalars : List Scalar) : bareEach scalars = scalars.map bare := by
  induction scalars with
  | nil => rfl
  | cons scalar rest ih => rw [bareEach, ih, List.map_cons]

@[simp] theorem asLiteral?_bare (scalar : Scalar) : scalar.bare.asLiteral? = scalar.asLiteral? := by
  cases scalar <;> rfl

@[simp] theorem isInt_bare (scalar : Scalar) (value : Int64) : scalar.bare.isInt value = scalar.isInt value := by
  rw [isInt, isInt, asLiteral?_bare]

@[simp] theorem kind_bare (scalar : Scalar) : scalar.bare.kind = scalar.kind := by
  cases scalar <;> rfl

@[simp] theorem children_bare (scalar : Scalar) : scalar.bare.children = scalar.children.map bare := by
  cases scalar with
  | call id function arguments => exact bareEach_eq_map arguments
  | literal | column | parameter => rfl

theorem inlined?_bare (environment : Environment) (scalar : Scalar) :
    inlined? environment scalar.bare = inlined? environment scalar := by
  cases scalar <;> rfl

theorem folded?_bare (scalar : Scalar) : folded? scalar.bare = folded? scalar := by
  cases scalar with
  | call id function arguments =>
    match arguments with
    | [] | _ :: _ :: _ :: _ => rfl
    | [_] | [_, _] => simp [bare, bareEach, folded?]
  | literal | column | parameter => rfl

theorem selected?_bare (scalar : Scalar) : selected? scalar.bare = (selected? scalar).map bare := by
  cases scalar with
  | call id function arguments =>
    cases function with
    | field position =>
      match arguments with
      | [] | _ :: _ :: _ => rfl
      | [argument] =>
        simp only [bare, bareEach, selected?, kind_bare, children_bare, List.getElem?_map]
        split <;> rfl
    | _ => rfl
  | literal | column | parameter => rfl

theorem keptAndDropped?_bare (scalar : Scalar) :
    keptAndDropped? scalar.bare = (keptAndDropped? scalar).map (Prod.map bare bare) := by
  cases scalar with
  | call id function arguments =>
    match arguments with
    | [] | [_] | _ :: _ :: _ :: _ => cases function <;> rfl
    | [left, right] =>
      cases function with
      | add | sub | mul =>
        simp only [bare, bareEach, keptAndDropped?, isInt_bare]
        split
        · rfl
        · first | rfl | (split <;> rfl)
      | _ => rfl
  | literal | column | parameter => rfl

mutual

theorem bare_bare (scalar : Scalar) : scalar.bare.bare = scalar.bare := by
  cases scalar with
  | call id function arguments => rw [bare, bare, bareEach_bareEach]
  | literal | column | parameter => rfl

theorem bareEach_bareEach (scalars : List Scalar) : bareEach (bareEach scalars) = bareEach scalars := by
  cases scalars with
  | nil => rfl
  | cons scalar rest => rw [bareEach, bareEach, bare_bare scalar, bareEach_bareEach rest]

end

mutual

theorem weight_bare (scalar : Scalar) : scalar.bare.weight = scalar.weight := by
  cases scalar with
  | call id function arguments => rw [bare, weight, weight, weightEach_bareEach]
  | literal | column | parameter => rfl

theorem weightEach_bareEach (scalars : List Scalar) : weightEach (bareEach scalars) = weightEach scalars := by
  cases scalars with
  | nil => rfl
  | cons scalar rest => rw [bareEach, weightEach, weightEach, weight_bare scalar, weightEach_bareEach rest]

end

theorem structural_bare : Structural bare where
  operator one other same := by
    show one.kind = other.kind
    rw [← kind_bare one, same, kind_bare]
  children one other same := by
    show one.children.map bare = other.children.map bare
    rw [← children_bare, same, children_bare]
  copied node mapped others id otherId _ same := by
    cases node with
    | call _ function arguments =>
      show call ⟨0⟩ function (bareEach mapped) = call ⟨0⟩ function (bareEach others)
      rw [bareEach_eq_map, bareEach_eq_map, same]
    | literal | column | parameter => rfl
  recopied node id := by
    cases node <;> rfl

theorem isUnaryOverLiteral_bare (scalar : Scalar) : scalar.bare.isUnaryOverLiteral = scalar.isUnaryOverLiteral := by
  cases scalar with
  | call id function arguments =>
    match arguments with
    | [_] => simp [bare, bareEach, isUnaryOverLiteral, isLiteral]
    | [] | _ :: _ :: _ => rfl
  | literal | column | parameter => rfl

theorem isArithmetic_bare (scalar : Scalar) : scalar.bare.isArithmetic = scalar.isArithmetic := by
  cases scalar with
  | call id function arguments =>
    match arguments with
    | [] | [_] | [_, _] | _ :: _ :: _ :: _ => rfl
  | literal | column | parameter => rfl

theorem isArithmeticOverLiterals_bare (scalar : Scalar) :
    scalar.bare.isArithmeticOverLiterals = scalar.isArithmeticOverLiterals := by
  have literals : isLiteral ∘ bare = isLiteral := by
    funext operand
    simp [isLiteral]
  rw [isArithmeticOverLiterals, isArithmeticOverLiterals, isArithmetic_bare, children_bare, List.all_map, literals]

/-- The patterns of the rules match structurally equal expressions alike. -/
theorem allRules_respect : ∀ rule ∈ allRules, rule.pattern.Respects bare := by
  simp only [allRules, List.forall_mem_cons]
  exact ⟨trivial, ⟨trivial, trivial⟩, Pattern.respects_filter isUnaryOverLiteral_bare,
    Pattern.respects_filter isArithmeticOverLiterals_bare, Pattern.respects_filter isArithmetic_bare,
    List.forall_mem_nil _⟩

end QueryOptimizer.Scalar
