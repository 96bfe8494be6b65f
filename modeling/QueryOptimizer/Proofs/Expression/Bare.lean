import Mathlib
import QueryOptimizer.Predicate.Basic

/-!
Agreement of expressions is equality apart from the identities of nodes: expressions agree if and only if they
are the same once all identities are forgotten.
-/
namespace QueryOptimizer

namespace Scalar

mutual

/-- The scalar with the same identity in all of its nodes. -/
def bare : Scalar → Scalar
  | literal _ value => literal ⟨0⟩ value
  | column _ quantifier name => column ⟨0⟩ quantifier name
  | parameter _ symbol => parameter ⟨0⟩ symbol
  | call _ function arguments => call ⟨0⟩ function (bareEach arguments)

def bareEach : List Scalar → List Scalar
  | [] => []
  | scalar :: rest => bare scalar :: bareEach rest

end

mutual

theorem agrees_iff_bare_eq (one other : Scalar) : one.agrees other = true ↔ one.bare = other.bare := by
  cases one with
  | literal | column | parameter => cases other <;> simp [agrees, bare]
  | call id function arguments =>
    cases other with
    | call otherId otherFunction others =>
      simp [agrees, bare, agreesEach_iff_bareEach_eq arguments others]
    | literal | column | parameter => simp [agrees, bare]

theorem agreesEach_iff_bareEach_eq (scalars others : List Scalar) :
    agreesEach scalars others = true ↔ bareEach scalars = bareEach others := by
  cases scalars with
  | nil => cases others <;> simp [agreesEach, bareEach]
  | cons scalar rest =>
    cases others with
    | nil => simp [agreesEach, bareEach]
    | cons other more =>
      simp [agreesEach, bareEach, agrees_iff_bare_eq scalar other, agreesEach_iff_bareEach_eq rest more]

end

theorem agreesEach_iff {scalars others : List Scalar} :
    agreesEach scalars others = true ↔ List.Forall₂ (fun one other => agrees one other = true) scalars others := by
  induction scalars generalizing others with
  | nil => cases others <;> simp [agreesEach]
  | cons scalar rest ih => cases others <;> simp [agreesEach, ih]

/-- Two scalars that agree with a third agree with each other. -/
theorem agrees_of_agrees {scalar one other : Scalar} (first : scalar.agrees one = true)
    (second : scalar.agrees other = true) : one.agrees other = true := by
  rw [agrees_iff_bare_eq] at *
  exact first.symm.trans second

end Scalar

namespace Predicate

mutual

/-- The predicate with the same identity in all of its nodes, those of its scalars included. -/
def bare : Predicate → Predicate
  | constant _ truth => constant ⟨0⟩ truth
  | and _ operands => and ⟨0⟩ (bareEach operands)
  | or _ operands => or ⟨0⟩ (bareEach operands)
  | not _ operand => not ⟨0⟩ (bare operand)
  | compare _ comparison left right => compare ⟨0⟩ comparison left.bare right.bare
  | isNull _ operand => isNull ⟨0⟩ operand.bare

def bareEach : List Predicate → List Predicate
  | [] => []
  | predicate :: rest => bare predicate :: bareEach rest

end

mutual

theorem agrees_iff_bare_eq (one other : Predicate) : one.agrees other = true ↔ one.bare = other.bare := by
  cases one with
  | constant => cases other <;> simp [agrees, bare]
  | and id operands =>
    cases other with
    | and otherId others => simp [agrees, bare, agreesEach_iff_bareEach_eq operands others]
    | _ => simp [agrees, bare]
  | or id operands =>
    cases other with
    | or otherId others => simp [agrees, bare, agreesEach_iff_bareEach_eq operands others]
    | _ => simp [agrees, bare]
  | not id operand =>
    cases other with
    | not otherId inner => simp [agrees, bare, agrees_iff_bare_eq operand inner]
    | _ => simp [agrees, bare]
  | compare | isNull => cases other <;> simp [agrees, bare, Scalar.agrees_iff_bare_eq, and_assoc]

theorem agreesEach_iff_bareEach_eq (predicates others : List Predicate) :
    agreesEach predicates others = true ↔ bareEach predicates = bareEach others := by
  cases predicates with
  | nil => cases others <;> simp [agreesEach, bareEach]
  | cons predicate rest =>
    cases others with
    | nil => simp [agreesEach, bareEach]
    | cons other more =>
      simp [agreesEach, bareEach, agrees_iff_bare_eq predicate other, agreesEach_iff_bareEach_eq rest more]

end

theorem agreesEach_iff {predicates others : List Predicate} :
    agreesEach predicates others = true ↔
      List.Forall₂ (fun one other => agrees one other = true) predicates others := by
  induction predicates generalizing others with
  | nil => cases others <;> simp [agreesEach]
  | cons predicate rest ih => cases others <;> simp [agreesEach, ih]

/-- Two predicates that agree with a third agree with each other. -/
theorem agrees_of_agrees {predicate one other : Predicate} (first : predicate.agrees one = true)
    (second : predicate.agrees other = true) : one.agrees other = true := by
  rw [agrees_iff_bare_eq] at *
  exact first.symm.trans second

end Predicate
end QueryOptimizer
