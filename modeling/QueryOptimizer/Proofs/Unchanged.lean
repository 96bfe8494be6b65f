import QueryOptimizer.Proofs.Simplification.InVain
import QueryOptimizer.Term.Basic

/-!
Trees that no rule changes. A rule may yield the very node it was called for; that changes nothing, but the
constraint of such a call is recorded like any other.
-/
namespace QueryOptimizer

namespace Constraint

/-- A conjunction is empty if and only if all its parts are. -/
theorem foldl_compose_eq_none_iff {constraints : List Constraint} :
    constraints.foldl compose .none = .none ↔ ∀ constraint ∈ constraints, constraint = .none := by
  constructor
  · intro empty constraint member
    refine ext_mem fun condition => ⟨fun required => ?_, fun absent => absurd absent not_mem_none⟩
    exact empty ▸ mem_foldl_compose.mpr (.inr ⟨constraint, member, required⟩)
  · intro empty
    refine ext_mem fun condition => ⟨fun required => ?_, fun absent => absurd absent not_mem_none⟩
    rcases mem_foldl_compose.mp required with absent | ⟨constraint, member, required⟩
    · exact absent
    · exact empty constraint member ▸ required

end Constraint

/-- If no call of a whole run yields anything but the node it is made for, both drivers return the tree as it
was given, and the session as the calls have left it. Optimization returns it without any constraint, whereas
simplification returns it under all constraints of calls that yielded their own node: without any constraint
if and only if none of those calls attached one. Optimization has to be allowed to go as deep as the tree. -/
theorem unchanged_tree_keeps_attached_constraints {ν ω σ : Type} [Tree ν ω] [DecidableEq ω]
    (setting : Setting ν ω (Call ν → RuleM σ (Response ν))) {root : ν} {session : Session σ}
    (formed : WellFormed root session.supply) {attached : List Constraint} {after : Ledger ν σ}
    (inVain : InVain setting.environment root (attempts setting.rules (Tree.postOrder root))
      { toSession := session } attached after) :
    simplify setting root session = .ok ⟨root, attached.foldl Constraint.compose .none⟩ after.toSession ∧
      (simplify setting root session = .ok ⟨root, .none⟩ after.toSession ↔
        ∀ constraint ∈ attached, constraint = .none) ∧
      ∀ limits : Limits, Tree.height root ≤ limits.recursion →
        optimize setting limits root session = .ok ⟨root, .none⟩ after.toSession := by
  have present := Tree.root_mem_postOrder root
  have distinct : ∀ inner ∈ Tree.postOrder root, sameNode root inner = true → root = inner :=
    fun inner within same => formed.distinct root present inner within (sameNode_iff.mp same)
  have collected : collectConstraints after.constraints root = attached.foldl Constraint.compose .none := by
    refine Constraint.ext_mem fun condition => ?_
    rw [inVain.mem_collectConstraints fun _ member => mem_of_mem_attempts member, Constraint.mem_foldl_compose,
      collectConstraints_empty]
  have simplified : simplify setting root session =
      .ok ⟨root, attached.foldl Constraint.compose .none⟩ after.toSession := by
    have ran := onFreshLedger_of_ok (inVain.fold_simplifyNode distinct present)
    unfold simplify
    rw [Tree.mapPostOrder_eq_fold, bind_of_ok ran, ← collected]
    rfl
  refine ⟨simplified, ?_, fun limits enough => ?_⟩
  · rw [simplified, ← Constraint.foldl_compose_eq_none_iff]
    simp
  · have ran := onFreshLedger_of_ok (inVain.explore distinct limits present enough)
    unfold optimize
    rw [bind_of_ok ran]
    simp only [sameNode_iff.mpr rfl, if_true]
    rfl

/-- A leaf, and a rule that yields every node for itself under a condition: simplification returns the leaf
under that condition, and optimization without. -/
theorem unchanged_tree_keeps_attached_constraints_custom_condition :
    let root : Term := .leaf ⟨0⟩ 1
    let assumed : Constraint := .of (.custom "c")
    let rule : SimplificationRule Term String Unit :=
      { name := "A", pattern := .any none
        action := fun call => pure { results := [call.current], constraint := .of (.custom "c") } }
    let setting : Setting Term String (Call Term → RuleM Unit (Response Term)) :=
      { environment := {}, rules := ⟨[rule]⟩, patience := fun _ => 0 }
    let session : Session Unit := ⟨⟨1⟩, ()⟩
    ∃ after, WellFormed root session.supply ∧
      InVain setting.environment root (attempts setting.rules (Tree.postOrder root)) { toSession := session }
        [assumed] after ∧
      simplify setting root session = .ok ⟨root, assumed⟩ after.toSession ∧
      ¬ simplify setting root session = .ok ⟨root, .none⟩ after.toSession ∧
      optimize setting {} root session = .ok ⟨root, .none⟩ after.toSession := by
  intro root assumed rule setting session
  have formed : WellFormed root session.supply := .leaf rfl Nat.zero_lt_one
  obtain ⟨after, inVain⟩ : ∃ after, InVain setting.environment root
      (attempts setting.rules (Tree.postOrder root)) { toSession := session } [assumed] after := by
    have alone : Tree.postOrder root = [root] := by
      rw [Tree.postOrder_eq]
      rfl
    have only : attempts setting.rules (Tree.postOrder root) = [(root, rule, .empty)] := by
      rw [alone]
      rfl
    let ledger : Ledger Term Unit := { toSession := session }
    have answered : rule.action (ledger.call setting.environment rule root root .empty) ledger.toSession =
        .ok { results := [root], constraint := assumed } session := rfl
    rw [only]
    exact ⟨_, .unchanged answered rfl .done⟩
  have assumes : ¬ assumed = .none := by decide
  obtain ⟨simplified, unconstrained, optimized⟩ := unchanged_tree_keeps_attached_constraints setting formed inVain
  rw [List.foldl_cons, List.foldl_nil, Constraint.none_compose] at simplified
  refine ⟨after, formed, inVain, simplified, fun none => ?_, optimized {} ?_⟩
  · exact assumes (unconstrained.mp none assumed (List.mem_singleton_self _))
  · exact Tree.height_le_succ_iff.mpr (List.forall_mem_nil _)

end QueryOptimizer
