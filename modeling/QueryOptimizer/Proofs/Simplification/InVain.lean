import QueryOptimizer.Proofs.Simplification.Ledger
import QueryOptimizer.Proofs.Simplification.Stability
import QueryOptimizer.Simplification.Exploration

/-!
Runs in which no call replaces a node. Such a run goes through the nodes in post-order and tries every rule
that may apply to them, in the same calls whichever driver makes them. All that it leaves behind are the
constraints of the calls that yielded their own node.
-/
namespace QueryOptimizer
variable {ν ω σ : Type} [Tree ν ω]

/-- A call to be made: a node, a rule and one match of its pattern. -/
abbrev Attempt (ν ω σ : Type) := ν × (SimplificationRule ν ω σ × Bindings ν)

/-- The attempts come to nothing when they are made in turn: no call yields anything but the node it is made
for. The constraints that were `attached` are those of the calls that yielded that node. -/
inductive InVain (environment : Environment) (root : ν) :
    List (Attempt ν ω σ) → Ledger ν σ → List Constraint → Ledger ν σ → Prop
  | done {ledger : Ledger ν σ} : InVain environment root [] ledger [] ledger
  | declined {current : ν} {rule : SimplificationRule ν ω σ} {bindings : Bindings ν} {response : Response ν}
      {session : Session σ} {ledger after : Ledger ν σ} {rest : List (Attempt ν ω σ)} {attached : List Constraint}
      (answered : rule.action (ledger.call environment rule root current bindings) ledger.toSession =
        .ok response session)
      (nothing : response.results = [])
      (others : InVain environment root rest { ledger with toSession := session } attached after) :
      InVain environment root ((current, rule, bindings) :: rest) ledger attached after
  | unchanged {current : ν} {rule : SimplificationRule ν ω σ} {bindings : Bindings ν} {response : Response ν}
      {session : Session σ} {ledger after : Ledger ν σ} {rest : List (Attempt ν ω σ)} {attached : List Constraint}
      (answered : rule.action (ledger.call environment rule root current bindings) ledger.toSession =
        .ok response session)
      (itself : response.results = [current])
      (others : InVain environment root rest (ledger.yielded session current current response.constraint)
        attached after) :
      InVain environment root ((current, rule, bindings) :: rest) ledger (response.constraint :: attached) after

namespace InVain
variable {environment : Environment} {root : ν} {ledger after : Ledger ν σ} {attached : List Constraint}
variable {front back : List (Attempt ν ω σ)}

/-- Attempts one after the other are made in two parts. -/
theorem split (inVain : InVain environment root (front ++ back) ledger attached after) :
    ∃ first second middle, attached = first ++ second ∧ InVain environment root front ledger first middle ∧
      InVain environment root back middle second after := by
  induction front generalizing ledger attached with
  | nil => exact ⟨[], attached, ledger, rfl, .done, inVain⟩
  | cons attempt rest ih =>
    cases inVain with
    | declined answered nothing others =>
      obtain ⟨first, second, middle, rfl, early, late⟩ := ih others
      exact ⟨first, second, middle, rfl, .declined answered nothing early, late⟩
    | unchanged answered itself others =>
      obtain ⟨first, second, middle, rfl, early, late⟩ := ih others
      exact ⟨_ :: first, second, middle, rfl, .unchanged answered itself early, late⟩

/-- The conditions that are collected for a tree are those that were collected before, and those that were
attached to its nodes. -/
theorem mem_collectConstraints {attempts : List (Attempt ν ω σ)} {tree : ν} {condition : Condition}
    (inVain : InVain environment root attempts ledger attached after)
    (within : ∀ attempt ∈ attempts, attempt.1 ∈ Tree.postOrder tree) :
    condition ∈ (collectConstraints after.constraints tree).conditions ↔
      condition ∈ (collectConstraints ledger.constraints tree).conditions ∨
        ∃ constraint ∈ attached, condition ∈ constraint.conditions := by
  induction inVain with
  | done => simp
  | declined answered nothing others ih =>
    exact ih fun attempt member => within attempt (List.mem_cons_of_mem _ member)
  | @unchanged current _ _ response _ ledger _ _ _ answered itself others ih =>
    rw [ih fun attempt member => within attempt (List.mem_cons_of_mem _ member), List.exists_mem_cons_iff, ← or_assoc]
    refine or_congr_left ?_
    have present : current ∈ Tree.postOrder tree := within _ (List.mem_cons_self ..)
    simp only [Ledger.yielded, QueryOptimizer.mem_collectConstraints, Table.recorded_attach]
    constructor
    · rintro ⟨node, member, recorded | ⟨-, recorded | own⟩⟩
      · exact .inl ⟨node, member, recorded⟩
      · exact .inl ⟨current, present, recorded⟩
      · exact .inr own
    · rintro (⟨node, member, recorded⟩ | own)
      · exact ⟨node, member, .inl recorded⟩
      · exact ⟨current, present, .inr ⟨rfl, .inr own⟩⟩

/-- Trying the applications of rules on one node finds no replacement for it. -/
theorem firstReplacement {current : ν} {pending : List (SimplificationRule ν ω σ × Bindings ν)}
    (inVain : InVain environment root (pending.map (Prod.mk current)) ledger attached after) :
    firstReplacement environment root current pending ledger = .ok none after := by
  induction pending generalizing ledger attached with
  | nil =>
    cases inVain
    rfl
  | cons application rest ih =>
    have called : Returns (callRule environment application.1 root current application.2) ledger
        fun yielded? middle => (∀ yielded, yielded? = some yielded → yielded.node = current) ∧
          ∃ others, InVain environment root (rest.map (Prod.mk current)) middle others after := by
      cases inVain with
      | declined answered nothing others =>
        exact callRule_ends (.of_eq answered (.inl ⟨nothing, by simp, _, others⟩))
      | unchanged answered itself others =>
        exact callRule_ends (.of_eq answered (.inr ⟨current, itself, by simp, _, others⟩))
    obtain ⟨yielded?, middle, found, same, _, others⟩ := called.returned
    unfold QueryOptimizer.firstReplacement
    rw [bind_of_ok found]
    cases yielded? with
    | none => exact ih others
    | some yielded =>
      obtain rfl := same yielded rfl
      simp only [sameNode_iff.mpr rfl, if_true]
      exact ih others

end InVain

/-- As long as nothing is replaced, calls are made for the root that the run has started with. -/
theorem callRoot_eq {root node : ν} (rooted : sameNode root node = true → root = node) :
    (if sameNode root node then node else root) = root := by
  split
  · rename_i same
    exact (rooted same).symm
  · rfl

variable [DecidableEq ω]

/-- Every rule that may apply to one of the nodes, with every match, node by node. -/
def attempts (rules : RuleSet ν ω (Call ν → RuleM σ (Response ν))) (nodes : List ν) : List (Attempt ν ω σ) :=
  nodes.flatMap fun node => (applications rules node).map (Prod.mk node)

section Runs
variable {setting : Setting ν ω (Call ν → RuleM σ (Response ν))} {root node : ν} {ledger after : Ledger ν σ}
variable {attached : List Constraint}

theorem mem_of_mem_attempts {rules : RuleSet ν ω (Call ν → RuleM σ (Response ν))} {nodes : List ν}
    {attempt : Attempt ν ω σ} (member : attempt ∈ attempts rules nodes) : attempt.1 ∈ nodes := by
  obtain ⟨node, present, tried⟩ := List.mem_flatMap.mp member
  obtain ⟨application, -, rfl⟩ := List.mem_map.mp tried
  exact present

/-- A node that all attempts leave in place is a fixpoint, as the root of the tree or below it. -/
theorem InVain.fixpoint (inVain : InVain setting.environment root (attempts setting.rules [node]) ledger attached after)
    (rooted : sameNode root node = true → root = node) :
    fixpoint setting root node ledger = .ok ⟨node, none⟩ after := by
  have tried : InVain setting.environment root ((applications setting.rules node).map (Prod.mk node)) ledger attached
      after := by
    simpa only [attempts, List.flatMap_cons, List.flatMap_nil, List.append_nil] using inVain
  have first (next : ν → Run ν σ (Outcome ν)) :
      replaceThen setting.environment setting.rules root (sameNode root node) next node ledger =
        .ok ⟨node, none⟩ after := by
    unfold replaceThen
    simp only [callRoot_eq rooted]
    rw [bind_of_ok tried.firstReplacement]
    rfl
  unfold QueryOptimizer.fixpoint
  cases setting.patience node with
  | zero => exact first _
  | succ steps => exact first _

/-- Steps over nodes leave each of them as it is, if the attempts on their trees are in vain, one after the
other. -/
theorem InVain.mapM {step : ν → Run ν σ ν} {nodes : List ν}
    (inVain : InVain setting.environment root (attempts setting.rules (nodes.flatMap Tree.postOrder)) ledger attached
      after)
    (steps : ∀ inner ∈ nodes, ∀ ledger attached after,
      InVain setting.environment root (attempts setting.rules (Tree.postOrder inner)) ledger attached after →
        step inner ledger = .ok inner after) :
    nodes.mapM step ledger = .ok nodes after := by
  induction nodes generalizing ledger attached with
  | nil =>
    cases inVain
    rfl
  | cons inner rest ih =>
    rw [List.flatMap_cons, attempts, List.flatMap_append] at inVain
    obtain ⟨_, _, middle, -, early, late⟩ := inVain.split
    rw [List.mapM_cons, bind_of_ok (steps inner (List.mem_cons_self ..) _ _ _ early),
      bind_of_ok (ih late fun other member => steps other (List.mem_cons_of_mem _ member))]
    rfl

/-- The attempts on a tree are those on the trees below its root, and then those on the root itself. -/
theorem InVain.descend
    (inVain : InVain setting.environment root (attempts setting.rules (Tree.postOrder node)) ledger attached after) :
    ∃ below here middle,
      InVain setting.environment root (attempts setting.rules ((Tree.children node).flatMap Tree.postOrder)) ledger
        below middle ∧
      InVain setting.environment root (attempts setting.rules [node]) middle here after := by
  rw [Tree.postOrder_eq, attempts, List.flatMap_append] at inVain
  obtain ⟨below, here, middle, -, early, late⟩ := inVain.split
  exact ⟨below, here, middle, early, late⟩

section Tree
variable (distinct : ∀ inner ∈ Tree.postOrder root, sameNode root inner = true → root = inner)
include distinct

/-- Simplification leaves every node of the tree as it is. -/
theorem InVain.fold_simplifyNode (within : node ∈ Tree.postOrder root)
    (inVain : InVain setting.environment root (attempts setting.rules (Tree.postOrder node)) ledger attached after) :
    Tree.fold (simplifyNode setting root) node ledger = .ok node after := by
  induction node using Tree.childInduction generalizing ledger attached after with
  | step node ih =>
    obtain ⟨_, _, middle, early, late⟩ := inVain.descend
    have visited := early.mapM fun child member _ _ _ =>
      ih child member (Tree.child_mem_postOrder within member)
    rw [Tree.fold_eq, bind_of_ok visited]
    have eitherRoot : sameNode node root = sameNode root node := by
      simp only [sameNode, eq_comm]
    unfold simplifyNode
    rw [Tree.rebuild_children, pure_bind]
    simp only [eitherRoot, callRoot_eq (distinct node within)]
    rw [bind_of_ok (late.fixpoint (distinct node within))]
    rfl

/-- So does exploration, if it may go as deep as the tree. -/
theorem InVain.explore (limits : Limits) {depth : Nat} (within : node ∈ Tree.postOrder root)
    (enough : Tree.height node ≤ depth)
    (inVain : InVain setting.environment root (attempts setting.rules (Tree.postOrder node)) ledger attached after) :
    explore setting limits depth root node ledger = .ok node after := by
  induction depth generalizing node ledger attached after with
  | zero => exact absurd enough (Nat.not_le.mpr (Tree.height_pos node))
  | succ depth ih =>
    obtain ⟨_, _, middle, early, late⟩ := inVain.descend
    have visited : (Tree.children node).mapM (QueryOptimizer.explore setting limits depth root) ledger =
        .ok (Tree.children node) middle :=
      early.mapM fun child member _ _ _ =>
        ih (Tree.child_mem_postOrder within member) (Tree.height_le_succ_iff.mp enough child member)
    have round (again : ν → Run ν σ ν) :
        exploreRound setting (QueryOptimizer.explore setting limits depth) root (sameNode root node) again node ledger =
          .ok node after := by
      unfold exploreRound
      simp only [callRoot_eq (distinct node within)]
      rw [bind_of_ok visited, Tree.rebuild_children, pure_bind]
      simp only [sameNode_iff.mpr rfl, Bool.not_true, Bool.false_eq_true, if_false, callRoot_eq (distinct node within)]
      rw [bind_of_ok (late.fixpoint (distinct node within))]
      rfl
    unfold QueryOptimizer.explore
    cases limits.reExplorations with
    | zero => exact round _
    | succ remaining => exact round _

end Tree
end Runs
end QueryOptimizer
