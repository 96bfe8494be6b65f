import QueryOptimizer.Proofs.Rule.Conformance
import QueryOptimizer.Proofs.Rule.Form
import QueryOptimizer.Term.Basic

/-!
Terms without identities, and the plainest rules for terms: an operator of one name is replaced by one of another,
over the same arguments.
-/
namespace QueryOptimizer

instance : LawfulTree Term where
  identity_copyOver node _ _ := by cases node <;> rfl
  children_copyOver node nodes _ size := by
    cases node with
    | leaf => exact (List.length_eq_zero_iff.mp size).symm
    | apply => rfl
  operator_copyOver node _ _ := by cases node <;> rfl

namespace Term

mutual

/-- The term with the same identity in all of its nodes. -/
def bare : Term → Term
  | leaf _ value => leaf ⟨0⟩ value
  | apply _ name arguments => apply ⟨0⟩ name (bareEach arguments)

def bareEach : List Term → List Term
  | [] => []
  | term :: rest => bare term :: bareEach rest

end

theorem bareEach_eq (terms : List Term) : bareEach terms = terms.map bare := by
  induction terms with
  | nil => rfl
  | cons term rest ih => rw [bareEach, ih, List.map_cons]

theorem structural_bare : Structural bare where
  operator one other same := by
    cases one <;> cases other <;> simp_all [bare, Tree.operator, operator]
  children one other same := by
    cases one <;> cases other <;> simp_all [bare, Tree.children, arguments, bareEach_eq]
  copied node mapped others id otherId _ same := by
    cases node <;> simp_all [bare, Tree.copyOver, copyOver, bareEach_eq]
  recopied node id := by
    cases node <;> simp [bare, Tree.copyOver, copyOver, Tree.children, arguments]

/-- The rule that replaces operators called `source` by operators called `target`. -/
def rename (name source target : String) : SimplificationRule Term String Unit where
  name
  pattern := .operator source none
  action call := do
    let id ← fresh
    return .only (.apply id target call.current.arguments) .none

/-- The form of the term that replaces one of the given form. -/
def renamed (target : String) : Term → Option Term
  | leaf _ _ => some (.apply ⟨0⟩ target [])
  | apply _ _ arguments => some (.apply ⟨0⟩ target arguments)

abbrev Settled (nodes : Set Term) (session : Session Unit) : Prop :=
  Arena nodes session.supply

variable (environment : Environment) (name source target : String)

theorem rename_yieldsExisting : YieldsExisting Settled environment (rename name source target) := by
  intro nodes call session called
  let node : Term := .apply session.supply.draw.1 target call.current.arguments
  refine .of_eq rfl ⟨insert node nodes, Set.subset_insert _ _, Arena.insert called.settles rfl ?_, ?_⟩
  · exact fun child member => called.settles.closed call.current called.present child member
  · exact List.forall_mem_singleton.mpr (Set.mem_insert _ _)

theorem rename_answersBy :
    AnswersBy Settled environment bare (rename name source target) fun form _ => renamed target form := by
  intro nodes call session called
  let node : Term := .apply session.supply.draw.1 target call.current.arguments
  have different : sameNode node call.current = false := called.settles.drawn_different called.present rfl
  refine .of_eq rfl ⟨rfl, some node, rfl, ?_⟩
  have form : bare node = .apply ⟨0⟩ target (call.current.arguments.map bare) := by
    rw [bare, bareEach_eq]
  rw [Option.filter_some, different]
  show some (bare node) = renamed target (bare call.current)
  rw [form]
  cases call.current with
  | leaf => rfl
  | apply => simp only [renamed, bare, arguments, bareEach_eq]

end Term
end QueryOptimizer
