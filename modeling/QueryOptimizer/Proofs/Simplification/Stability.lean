import QueryOptimizer.Proofs.Rule.Contract
import QueryOptimizer.Proofs.Simplification.Fixpoint
import QueryOptimizer.Simplification.Exploration

/-!
Nodes that no rule replaces, whenever it is called. Both drivers leave a tree of such nodes as it is.
-/
namespace QueryOptimizer
variable {ν ω σ : Type} [Tree ν ω]

theorem Tree.rebuild_children {m : Type → Type} [Monad m] [MonadFresh m] [MonadRaise m] (node : ν) :
    (Tree.rebuild node (children node) : m ν) = pure node := by
  have same : ((children node).zip (children node)).all (fun pair => sameNode pair.1 pair.2) = true := by
    rw [List.zip_eq_zipWith, List.zipWith_self, List.all_map]
    exact List.all_eq_true.mpr fun child _ => sameNode_iff.mpr rfl
  simp [rebuild, same]

theorem collectConstraints_empty (root : ν) : collectConstraints .empty root = Constraint.none := by
  simp [collectConstraints]

variable [DecidableEq ω]

/-- Whatever calls the drivers make at `node` while the nodes and the ledger fit, they return, and they
leave the node in place. -/
def Rests (setting : Setting ν ω (Call ν → RuleM σ (Response ν))) (fits : Set ν → Ledger ν σ → Prop)
    (node : ν) : Prop :=
  ∀ application ∈ applications setting.rules node, ∀ nodes ledger root, fits nodes ledger →
    root ∈ nodes → node ∈ nodes →
      Returns (callRule setting.environment application.1 root node application.2) ledger
        fun yielded? after => Onward fits nodes after fun _ => Verdict node True (fun _ => False) yielded?

section Rests
variable {setting : Setting ν ω (Call ν → RuleM σ (Response ν))} {fits : Set ν → Ledger ν σ → Prop}
variable {node root : ν} {nodes : Set ν} {ledger : Ledger ν σ}

theorem Rests.replaceThen (rests : Rests setting fits node) (outermost : Bool)
    (next : ν → Run ν σ (Outcome ν)) (fit : fits nodes ledger) (rooted : root ∈ nodes)
    (present : node ∈ nodes) :
    Returns (replaceThen setting.environment setting.rules root outermost next node) ledger
      fun outcome after => Onward fits nodes after fun _ => outcome = ⟨node, none⟩ := by
  have callRooted : (if outermost then node else root) ∈ nodes := by
    cases outermost
    · exact rooted
    · exact present
  let fitsHere (nodes : Set ν) (ledger : Ledger ν σ) : Prop :=
    fits nodes ledger ∧ (if outermost then node else root) ∈ nodes ∧ node ∈ nodes
  refine .bind ((firstReplacement_ends fitsHere (fun _ => True) (fun _ _ => False) setting.environment _ node
    (applications setting.rules node) ?_ ⟨fit, callRooted, present⟩).imp ?_)
  · intro application member nodes ledger fit
    refine (rests application member nodes ledger _ fit.1 fit.2.1 fit.2.2).imp ?_
    intro yielded? after reached
    obtain ⟨wider, extended, fitted, verdict⟩ := reached
    exact ⟨wider, extended, ⟨fitted, extended fit.2.1, extended fit.2.2⟩, verdict⟩
  · intro replacement? after reached
    obtain ⟨wider, extended, fitted, found⟩ := reached
    cases replacement? with
    | none => exact .pure ⟨wider, extended, fitted.1, rfl⟩
    | some replacement => exact False.elim found

theorem Rests.fixpoint (rests : Rests setting fits node) (fit : fits nodes ledger) (rooted : root ∈ nodes)
    (present : node ∈ nodes) :
    Returns (fixpoint setting root node) ledger
      fun outcome after => Onward fits nodes after fun _ => outcome = ⟨node, none⟩ := by
  unfold QueryOptimizer.fixpoint
  cases setting.patience node with
  | zero => exact rests.replaceThen _ _ fit rooted present
  | succ steps => exact rests.replaceThen _ _ fit rooted present

variable (arena : ∀ nodes ledger, fits nodes ledger → Arena nodes ledger.supply)
include arena

/-- Simplification leaves a tree as it is whose nodes all rest. -/
theorem mapPostOrder_simplifyNode_of_rests (rests : ∀ inner ∈ Tree.postOrder node, Rests setting fits inner)
    (fit : fits nodes ledger) (rooted : root ∈ nodes) (present : node ∈ nodes) :
    Returns (Tree.mapPostOrder (simplifyNode setting root) node) ledger
      fun result after => Onward fits nodes after fun _ => result = node := by
  let fitsHere (nodes : Set ν) (ledger : Ledger ν σ) : Prop := fits nodes ledger ∧ root ∈ nodes ∧ node ∈ nodes
  refine (Tree.mapPostOrder_ends fitsHere (fun _ inner result => result = inner) (fun _ _ _ _ _ same => same)
    node ?_ ⟨fit, rooted, present⟩).imp ?_
  · rintro inner within nodes ledger results ⟨fit, rooted, present⟩ unchanged
    obtain rfl : results = Tree.children inner := List.forall₂_eq_eq_eq ▸ unchanged.flip
    have innerPresent := (arena nodes ledger fit).subtree present within
    have callRooted : (if sameNode inner root then inner else root) ∈ nodes := by
      split
      · exact innerPresent
      · exact rooted
    unfold simplifyNode
    rw [Tree.rebuild_children, pure_bind]
    refine .bind (((rests inner within).fixpoint fit callRooted innerPresent).imp ?_)
    rintro _ after ⟨wider, extended, fitted, rfl⟩
    exact .pure ⟨wider, extended, ⟨fitted, extended rooted, extended present⟩, rfl⟩
  · rintro result after ⟨wider, extended, fitted, same⟩
    exact ⟨wider, extended, fitted.1, same⟩

/-- A round of exploration leaves a node as it is that rests, if visiting its children leaves them. -/
theorem exploreRound_of_rests {visit : ν → ν → Run ν σ ν} (rests : Rests setting fits node)
    (visits : ∀ child ∈ Tree.children node, ∀ root nodes ledger, fits nodes ledger → root ∈ nodes →
      child ∈ nodes → Returns (visit root child) ledger
        fun result after => Onward fits nodes after fun _ => result = child)
    (outermost : Bool) (again : ν → Run ν σ ν) (fit : fits nodes ledger) (rooted : root ∈ nodes)
    (present : node ∈ nodes) :
    Returns (exploreRound setting visit root outermost again node) ledger
      fun result after => Onward fits nodes after fun _ => result = node := by
  have callRooted : (if outermost then node else root) ∈ nodes := by
    cases outermost
    · exact rooted
    · exact present
  let fitsHere (nodes : Set ν) (ledger : Ledger ν σ) : Prop :=
    fits nodes ledger ∧ (if outermost then node else root) ∈ nodes ∧ node ∈ nodes
  have visited : Returns ((Tree.children node).mapM (visit (if outermost then node else root))) ledger
      fun results after => Onward fitsHere nodes after fun _ => List.Forall₂ (· = ·) (Tree.children node) results := by
    refine Ends.mapM fitsHere (fun _ => (· = ·)) (fun _ _ _ _ _ same => same) _ ?_ ⟨fit, callRooted, present⟩
    rintro child member nodes ledger ⟨fit, callRooted, present⟩
    refine (visits child member _ nodes ledger fit callRooted
      ((arena nodes ledger fit).closed node present child member)).imp ?_
    rintro result after ⟨wider, extended, fitted, same⟩
    exact ⟨wider, extended, ⟨fitted, extended callRooted, extended present⟩, same.symm⟩
  unfold exploreRound
  refine .bind (visited.imp ?_)
  rintro results middle ⟨between, extended, ⟨fitted, callRooted, present⟩, unchanged⟩
  obtain rfl : Tree.children node = results := List.forall₂_eq_eq_eq ▸ unchanged
  rw [Tree.rebuild_children, pure_bind]
  simp only [sameNode_iff.mpr rfl]
  refine .bind ((rests.fixpoint fitted callRooted present).imp ?_)
  rintro _ after ⟨wider, further, final, rfl⟩
  exact .pure ⟨wider, le_trans extended further, final, rfl⟩

/-- Exploration leaves a tree as it is whose nodes all rest, if it may go as deep as the tree. -/
theorem explore_of_rests (limits : Limits) {depth : Nat}
    (rests : ∀ inner ∈ Tree.postOrder node, Rests setting fits inner) (enough : Tree.height node ≤ depth)
    (fit : fits nodes ledger) (rooted : root ∈ nodes) (present : node ∈ nodes) :
    Returns (explore setting limits depth root node) ledger
      fun result after => Onward fits nodes after fun _ => result = node := by
  induction depth generalizing node root nodes ledger with
  | zero => exact absurd enough (Nat.not_le.mpr (Tree.height_pos node))
  | succ depth ih =>
    have visits : ∀ child ∈ Tree.children node, ∀ root nodes ledger, fits nodes ledger → root ∈ nodes →
        child ∈ nodes → Returns (explore setting limits depth root child) ledger
          fun result after => Onward fits nodes after fun _ => result = child := by
      intro child member root nodes ledger fit rooted present
      exact ih (fun inner within => rests inner (Tree.mem_postOrder_of_child member within))
        (Tree.height_le_succ_iff.mp enough child member) fit rooted present
    have here := rests node (Tree.root_mem_postOrder node)
    unfold explore
    cases limits.reExplorations with
    | zero => exact exploreRound_of_rests arena here visits _ _ fit rooted present
    | succ remaining => exact exploreRound_of_rests arena here visits _ _ fit rooted present

end Rests

section Promises
variable (settled : Set ν → Session σ → Prop)

/-- The nodes are settled in the session that the ledger is part of. -/
abbrev InSession (nodes : Set ν) (ledger : Ledger ν σ) : Prop :=
  settled nodes ledger.toSession

/-- The application was tried in a call that can be made, and left the node in place. -/
def LeftInPlace (environment : Environment) (node : ν) (application : SimplificationRule ν ω σ × Bindings ν) :
    Prop :=
  ∃ nodes call session response after, CalledIn settled environment application.1 nodes call session ∧
    call.current = node ∧ call.bindings = application.2 ∧
    application.1.action call session = .ok response after ∧
    (response.results = [] ∨ ∃ twin, response.results = [twin] ∧ sameNode twin node = true)

variable {settled} {setting : Setting ν ω (Call ν → RuleM σ (Response ν))} {node : ν}

/-- A node that all applications left in place once rests, if what rules yield depends on the node alone. -/
theorem rests_of_leftInPlace
    (existing : ∀ rule ∈ setting.rules.rules, YieldsExisting settled setting.environment rule)
    (contextFree : ∀ rule ∈ setting.rules.rules, ContextFree settled setting.environment rule)
    (left : ∀ application ∈ applications setting.rules node,
      LeftInPlace settled setting.environment node application) :
    Rests setting (InSession settled) node := by
  intro application member nodes ledger root settles rooted present
  obtain ⟨others, call, session, response, _, called, rfl, same, found, inPlace⟩ := left application member
  have twin := calledIn_of_mem_applications setting.environment member settles rooted present
  have isRule := (mem_applications.mp member).1.1
  have answers := (contextFree _ isRule others nodes call _ session _ called twin rfl same.symm).at_ok found
  refine callRule_takes ((answers.and (existing _ isRule _ _ _ twin)).mono ?_ fun _ _ stopped => stopped.1)
  rintro twinResponse after ⟨alike, wider, included, settles, -⟩
  unfold Ledger.Takes
  rcases inPlace with empty | ⟨kept, single, keptSame⟩
  · rw [empty] at alike
    rw [List.forall₂_nil_left_iff.mp alike]
    exact ⟨wider, included, settles, trivial⟩
  · rw [single] at alike
    obtain ⟨twinKept, _, alikeSame, rest, twinSingle⟩ := List.forall₂_cons_left_iff.mp alike
    rw [twinSingle, List.forall₂_nil_left_iff.mp rest]
    exact ⟨wider, included, settles, fun _ => trivial, fun different => different (alikeSame ▸ keptSame)⟩

/-- At a node that rests, rules that never yield the current node record nothing. -/
theorem Rests.quietly (rests : Rests setting (InSession settled) node)
    (replacing : ∀ rule ∈ setting.rules.rules, Replacing settled setting.environment rule)
    (constraints : Table ν Constraint) :
    Rests setting (fun nodes ledger => InSession settled nodes ledger ∧ ledger.constraints = constraints) node := by
  rintro application member nodes ledger root ⟨settles, rfl⟩ rooted present
  have called := calledIn_of_mem_applications setting.environment member settles rooted present
  have replaces := replacing _ (mem_applications.mp member).1.1 _ _ _ called
  refine ((rests application member nodes ledger root settles rooted present).and
    (callRule_answered setting.environment application.1 root node application.2 ledger)).mono ?_
      fun _ _ stopped => stopped.1
  rintro yielded? after ⟨⟨wider, extended, settles, verdict⟩, response, session, found, answer⟩
  rcases answer with ⟨-, -, rfl⟩ | ⟨kept, single, rfl, rfl⟩
  · exact ⟨wider, extended, ⟨settles, rfl⟩, verdict⟩
  · exact False.elim (verdict.2 (replaces.at_ok found kept (by simp [single])))

section Runs
variable (habitat : SessionHabitat settled) {root : ν} {nodes : Set ν} {session : Session σ}
include habitat

/-- By rules that never yield the current node, simplification leaves a tree as it is whose nodes all rest,
and records nothing. -/
theorem mapPostOrder_simplifyNode_quietly
    (replacing : ∀ rule ∈ setting.rules.rules, Replacing settled setting.environment rule)
    (rests : ∀ inner ∈ Tree.postOrder node, Rests setting (InSession settled) inner) {ledger : Ledger ν σ}
    (settles : settled nodes ledger.toSession) (rooted : root ∈ nodes) (present : node ∈ nodes) :
    Returns (Tree.mapPostOrder (simplifyNode setting root) node) ledger fun result after =>
      result = node ∧ after.constraints = ledger.constraints ∧
        ∃ wider, nodes ⊆ wider ∧ settled wider after.toSession := by
  let fits (nodes : Set ν) (after : Ledger ν σ) : Prop :=
    InSession settled nodes after ∧ after.constraints = ledger.constraints
  have quiet : ∀ inner ∈ Tree.postOrder node, Rests setting fits inner :=
    fun inner within => (rests inner within).quietly replacing ledger.constraints
  have arena := fun nodes (after : Ledger ν σ) (fit : fits nodes after) => habitat.arena nodes after.toSession fit.1
  refine (mapPostOrder_simplifyNode_of_rests arena quiet ⟨settles, rfl⟩ rooted present).imp ?_
  rintro result after ⟨wider, included, ⟨settles, unchanged⟩, same⟩
  exact ⟨same, unchanged, wider, included, settles⟩

/-- By such rules, a tree whose nodes all rest is simplified to itself, without any constraint. -/
theorem simplify_of_rests
    (replacing : ∀ rule ∈ setting.rules.rules, Replacing settled setting.environment rule)
    (rests : ∀ inner ∈ Tree.postOrder root, Rests setting (InSession settled) inner)
    (settles : settled nodes session) (present : root ∈ nodes) :
    Returns (simplify setting root) session fun simplified after =>
      simplified = ⟨root, .none⟩ ∧ ∃ wider, nodes ⊆ wider ∧ settled wider after := by
  refine .bind (onFreshLedger_ends ((mapPostOrder_simplifyNode_quietly habitat replacing rests settles present
    present).imp ?_))
  rintro result after ⟨rfl, unchanged, known⟩
  refine .pure ⟨?_, known⟩
  rw [unchanged, collectConstraints_empty]

/-- A tree whose nodes all rest is optimized to itself, without any constraint, if the traversal may go
as deep as the tree. -/
theorem optimize_of_rests {limits : Limits} (enough : Tree.height root ≤ limits.recursion)
    (rests : ∀ inner ∈ Tree.postOrder root, Rests setting (InSession settled) inner)
    (settles : settled nodes session) (present : root ∈ nodes) :
    Returns (optimize setting limits root) session fun optimized after =>
      optimized = ⟨root, .none⟩ ∧ ∃ wider, nodes ⊆ wider ∧ settled wider after := by
  have arena := fun nodes (ledger : Ledger ν σ) => habitat.arena nodes ledger.toSession
  have fit : InSession settled nodes ({ toSession := session } : Ledger ν σ) := settles
  refine .bind (onFreshLedger_ends ((explore_of_rests arena limits rests enough fit present present).imp ?_))
  rintro result after ⟨wider, included, settles, rfl⟩
  simp only [sameNode_iff.mpr rfl, if_true]
  exact .pure ⟨rfl, wider, included, settles⟩

omit habitat

/-- No rule has an alternative to a node that rests. -/
theorem simplifyCurrent_of_rests (rests : Rests setting (InSession settled) node) (settles : settled nodes session)
    (present : node ∈ nodes) :
    Returns (simplifyCurrent setting.environment setting.rules node) session fun alternatives after =>
      alternatives = [] ∧ ∃ wider, nodes ⊆ wider ∧ settled wider after := by
  let fits (nodes : Set ν) (session : Session σ) : Prop := settled nodes session ∧ node ∈ nodes
  refine .bind ((Ends.mapM fits (fun _ _ alternative? => alternative? = none) (fun _ _ _ _ _ same => same)
    (applications setting.rules node) ?_ ⟨settles, present⟩).imp ?_)
  · rintro application member nodes session ⟨settles, present⟩
    refine .bind (onFreshLedger_ends ((rests application member nodes { toSession := session } node settles
      present present).imp ?_))
    rintro yielded? after ⟨wider, included, settles, verdict⟩
    refine .pure ⟨wider, included, ⟨settles, included present⟩, ?_⟩
    cases yielded? with
    | none => rfl
    | some yielded =>
      by_cases same : sameNode yielded.node node = true
      · simp [same]
      · exact False.elim (verdict.2 same)
  · rintro alternatives after ⟨wider, included, ⟨settles, -⟩, none⟩
    refine .pure ⟨?_, wider, included, settles⟩
    exact List.filterMap_eq_nil_iff.mpr (forall_mem_of_forall₂ none fun _ _ absent => absent)

end Runs
end Promises
end QueryOptimizer
