import QueryOptimizer.Proofs.Simplification.Call
import QueryOptimizer.Proofs.Tree.Descent
import QueryOptimizer.Simplification.BottomUp
import QueryOptimizer.Simplification.Exploration

/-!
What a run is confined to: a property that copies and replacements of nodes keep, and a property of
conditions that whatever is recorded has. Both hold of every entry of the ledger, whichever node it is
recorded for, and so nothing is assumed of the identities in a tree.
-/
namespace QueryOptimizer
variable {ν ω σ : Type} [Tree ν ω]

/-- Every recorded condition is an allowed one. -/
def Table.RecordsOnly (allowed : Condition → Prop) (constraints : Table ν Constraint) : Prop :=
  ∀ node, ∀ condition ∈ (constraints.recorded node).conditions, allowed condition

section Records
variable {allowed : Condition → Prop} {constraints : Table ν Constraint}

theorem recordsOnly_empty : (Table.empty : Table ν Constraint).RecordsOnly allowed := by
  intro node condition member
  have nothing : (Table.empty : Table ν Constraint).recorded node = .none := by
    rw [Table.recorded, Table.get?_empty, Option.getD_none]
  exact absurd (nothing ▸ member) Constraint.not_mem_none

namespace Table.RecordsOnly

theorem attach (records : constraints.RecordsOnly allowed) (current node : ν) {constraint : Constraint}
    (attached : ∀ condition ∈ constraint.conditions, allowed condition) :
    (attachConstraint constraints current node constraint).RecordsOnly allowed := by
  intro other condition member
  rcases Table.recorded_attach.mp member with earlier | ⟨-, earlier | added⟩
  · exact records other condition earlier
  · exact records current condition earlier
  · exact attached condition added

theorem carry (records : constraints.RecordsOnly allowed) (node copy : ν) :
    (carryConstraint constraints node copy).RecordsOnly allowed := by
  intro other condition member
  by_cases same : identity copy = identity other
  · cases found : constraints.get? node with
    | none =>
      rw [carryConstraint, found] at member
      exact records other condition member
    | some constraint =>
      have carried : (carryConstraint constraints node copy).recorded other = constraints.recorded node := by
        simp only [Table.recorded, carryConstraint, found, Table.get?_insert, if_pos same]
      exact records node condition (carried ▸ member)
  · rw [Table.recorded, Table.get?_carry_of_ne same] at member
    exact records other condition member

theorem collected (records : constraints.RecordsOnly allowed) (root : ν) :
    ∀ condition ∈ (collectConstraints constraints root).conditions, allowed condition := by
  intro condition member
  obtain ⟨node, -, recorded⟩ := mem_collectConstraints.mp member
  exact records node condition recorded

end Table.RecordsOnly
end Records

/-- Only allowed conditions are recorded, and the node has the property. -/
structure Confined (bound : ν → Prop) (allowed : Condition → Prop) (node : ν) (ledger : Ledger ν σ) : Prop where
  records : ledger.constraints.RecordsOnly allowed
  known : bound node

theorem Confined.parts {bound : ν → Prop} {allowed : Condition → Prop} {node : ν} {ledger : Ledger ν σ}
    (confined : Confined bound allowed node ledger) :
    ledger.constraints.RecordsOnly allowed ∧ bound node :=
  ⟨confined.records, confined.known⟩

/-- Every condition of the answer was recorded for some node before the call, or originates from the
current node. -/
def Attaches (call : Call ν) (origin : ν → Condition → Prop) (response : Response ν) : Prop :=
  ∀ condition ∈ response.constraint.conditions,
    (∃ node, condition ∈ (call.constraints.recorded node).conditions) ∨ origin call.current condition

namespace Attaches
variable {call : Call ν} {origin : ν → Condition → Prop} {result : ν}

theorem nothing : Attaches call origin .nothing :=
  fun _ member => absurd member Constraint.not_mem_none

theorem only {constraint : Constraint}
    (attached : ∀ condition ∈ constraint.conditions,
      (∃ node, condition ∈ (call.constraints.recorded node).conditions) ∨ origin call.current condition) :
    Attaches call origin (.only result constraint) := by
  intro condition member
  rcases Constraint.mem_compose.mp member with absent | present
  · exact absurd absent Constraint.not_mem_none
  · exact attached condition present

theorem unconstrained : Attaches call origin (.only result .none) :=
  only fun _ member => absurd member Constraint.not_mem_none

theorem carried (nodes : List ν) : Attaches call origin (.only result (call.carried nodes)) := by
  refine only fun condition member => ?_
  obtain ⟨node, -, recorded⟩ := Call.mem_carried.mp member
  exact .inl ⟨node, recorded⟩

end Attaches

/-- Whenever a call of the rule returns, every condition that it answers under was recorded before, or
originates from the current node. -/
def Attaching (environment : Environment) (origin : ν → Condition → Prop)
    (rule : SimplificationRule ν ω σ) : Prop :=
  ∀ (call : Call ν) (session : Session σ), call.environment = environment →
    WhenReturns (rule.action call) session fun response _ => Attaches call origin response

/-- Looking up a binding comes before anything is answered. -/
theorem Call.whenReturns_get {α : Type} {call : Call ν} {key : String} {session : Session σ}
    {next : ν → RuleM σ α} {returns : α → Session σ → Prop}
    (found : ∀ node, WhenReturns (next node) session returns) :
    WhenReturns (call.get key >>= next) session returns := by
  unfold Call.get
  split
  · exact found _
  · exact trivial

variable [DecidableEq ω]

/-- A rule that conforms to steps between nodes with a property yields such nodes, and if the conditions
that originate from them are allowed, it answers under allowed conditions. -/
theorem Conforms.confined {environment : Environment} {rule : SimplificationRule ν ω σ} {reExplore : Bool}
    {declines : ν → Prop} {step : Table ν Constraint → Session σ → ν → ν → Constraint → Session σ → Prop}
    {bound : ν → Prop} {allowed : Condition → Prop} {origin : ν → Condition → Prop}
    (conforms : Conforms environment rule reExplore declines step)
    (steps : ∀ constraints session current node constraint after,
      step constraints session current node constraint after → bound current → bound node)
    (attaching : Attaching environment origin rule)
    (originates : ∀ node condition, bound node → origin node condition → allowed condition)
    {call : Call ν} {session : Session σ} (same : call.environment = environment)
    (known : bound call.current) (records : call.constraints.RecordsOnly allowed)
    (matched : call.bindings ∈ rule.pattern.allMatches .empty call.current) :
    WhenReturns (rule.action call) session fun response _ =>
      (∀ node ∈ response.results, bound node) ∧
        ∀ condition ∈ response.constraint.conditions, allowed condition := by
  refine ((conforms call session same matched).partly.and (attaching call session same)).mono ?_ fun _ _ _ => trivial
  intro response after outcome
  obtain ⟨answered, attached⟩ := outcome
  constructor
  · rcases answered with ⟨empty, -, -⟩ | ⟨node, single, -, taken⟩
    · simp [empty]
    · simpa [single] using steps _ _ _ _ _ _ taken known
  · intro condition member
    rcases attached condition member with ⟨node, recorded⟩ | own
    · exact records node condition recorded
    · exact originates call.current condition known own

/-- What is assumed of a run: what is known of nodes passes on to children and copies, and rules called on
such a node, while only allowed conditions are recorded, yield such nodes under such conditions. -/
structure Confines (setting : Setting ν ω (Call ν → RuleM σ (Response ν))) (bound : ν → Prop)
    (allowed : Condition → Prop) : Prop where
  children : ∀ node, bound node → ∀ child ∈ Tree.children node, bound child
  copies : ∀ node mapped id, bound node → (∀ child ∈ mapped, bound child) →
    bound (Tree.copyOver node mapped id)
  rules : ∀ (call : Call ν) (session : Session σ), call.environment = setting.environment →
    bound call.current → call.constraints.RecordsOnly allowed →
    ∀ rule ∈ setting.rules.rules, call.bindings ∈ rule.pattern.allMatches .empty call.current →
      WhenReturns (rule.action call) session fun response _ =>
        (∀ node ∈ response.results, bound node) ∧
          ∀ condition ∈ response.constraint.conditions, allowed condition

namespace Confines
variable {setting : Setting ν ω (Call ν → RuleM σ (Response ν))} {bound : ν → Prop}
variable {allowed : Condition → Prop} {ledger : Ledger ν σ} {root current : ν}

theorem callRule (confines : Confines setting bound allowed)
    (confined : Confined bound allowed current ledger)
    {application : SimplificationRule ν ω σ × Bindings ν}
    (member : application ∈ applications setting.rules current) :
    WhenReturns (callRule setting.environment application.1 root current application.2) ledger
      fun yielded? after => after.constraints.RecordsOnly allowed ∧
        ∀ yielded, yielded? = some yielded → bound yielded.node := by
  obtain ⟨⟨isRule, -⟩, matched⟩ := mem_applications.mp member
  refine (callRule_answered setting.environment application.1 root current application.2 ledger).imp ?_
  intro yielded? after answered
  obtain ⟨response, session, found, outcome⟩ := answered
  obtain ⟨results, conditions⟩ := (confines.rules
    (ledger.call setting.environment application.1 root current application.2) ledger.toSession rfl
    confined.known confined.records application.1 isRule matched).at_ok found
  rcases outcome with ⟨-, rfl, rfl⟩ | ⟨node, single, rfl, rfl⟩
  · exact ⟨confined.records, fun _ absent => nomatch absent⟩
  · refine ⟨confined.records.attach current node conditions, ?_⟩
    intro yielded same
    obtain rfl := Option.some.inj same
    exact results node (by simp [single])

theorem firstReplacement (confines : Confines setting bound allowed)
    (confined : Confined bound allowed current ledger)
    (pending : List (SimplificationRule ν ω σ × Bindings ν))
    (among : ∀ application ∈ pending, application ∈ applications setting.rules current) :
    WhenReturns (firstReplacement setting.environment root current pending) ledger
      fun replacement? after => after.constraints.RecordsOnly allowed ∧
        ∀ replacement, replacement? = some replacement → bound replacement.2.node := by
  induction pending generalizing ledger with
  | nil => exact .pure ⟨confined.records, fun _ absent => nomatch absent⟩
  | cons application rest ih =>
    have later (ledger : Ledger ν σ) (records : ledger.constraints.RecordsOnly allowed) :=
      ih ⟨records, confined.known⟩ fun other member => among other (List.mem_cons_of_mem _ member)
    refine .bind ((confines.callRule confined (among application (List.mem_cons_self ..))).imp ?_)
    intro yielded? middle outcome
    obtain ⟨records, yields⟩ := outcome
    cases yielded? with
    | none => exact later middle records
    | some yielded =>
      by_cases same : sameNode yielded.node current = true
      · simp only [same, if_true]
        exact later middle records
      · simp only [same]
        refine .pure ⟨records, ?_⟩
        intro replacement found
        obtain rfl := Option.some.inj found
        exact yields yielded rfl

theorem replaceThen (confines : Confines setting bound allowed) (outermost : Bool)
    (next : ν → Run ν σ (Outcome ν))
    (goes : ∀ node (ledger : Ledger ν σ), Confined bound allowed node ledger →
      WhenReturns (next node) ledger fun outcome after => Confined bound allowed outcome.node after)
    (confined : Confined bound allowed current ledger) :
    WhenReturns (replaceThen setting.environment setting.rules root outermost next current) ledger
      fun outcome after => Confined bound allowed outcome.node after := by
  refine .bind ((confines.firstReplacement confined _ fun _ member => member).imp ?_)
  intro replacement? middle outcome
  obtain ⟨records, replaces⟩ := outcome
  cases replacement? with
  | none => exact .pure ⟨records, confined.known⟩
  | some replacement =>
    obtain ⟨rule, yielded⟩ := replacement
    have replaced : Confined bound allowed yielded.node middle := ⟨records, replaces (rule, yielded) rfl⟩
    by_cases asked : yielded.reExplore = true
    · simp only [asked, if_true]
      exact .pure replaced
    · simp only [asked]
      exact goes yielded.node middle replaced

theorem replaceRepeatedly (confines : Confines setting bound allowed) (outermost : Bool) (steps : Nat)
    (confined : Confined bound allowed current ledger) :
    WhenReturns (replaceRepeatedly setting.environment setting.rules root outermost steps current) ledger
      fun outcome after => Confined bound allowed outcome.node after := by
  induction steps generalizing current ledger with
  | zero => exact confines.replaceThen outermost _ (fun _ _ _ => trivial) confined
  | succ steps ih => exact confines.replaceThen outermost _ (fun _ _ => ih) confined

theorem fixpoint (confines : Confines setting bound allowed) (confined : Confined bound allowed current ledger) :
    WhenReturns (fixpoint setting root current) ledger
      fun outcome after => Confined bound allowed outcome.node after :=
  confines.replaceRepeatedly _ _ confined

theorem rebuild (confines : Confines setting bound allowed) {mapped : List ν}
    (confined : Confined bound allowed current ledger)
    (size : (Tree.children current).length = mapped.length) (below : ∀ child ∈ mapped, bound child) :
    WhenReturns (Tree.rebuild current mapped : Run ν σ ν) ledger (Confined bound allowed) := by
  refine (Tree.rebuild_returns size).partly.imp ?_
  intro rebuilt after outcome
  rcases outcome with ⟨rfl, rfl, -⟩ | ⟨rfl, rfl, -⟩
  · exact confined
  · exact ⟨confined.records, confines.copies current mapped _ confined.known below⟩

theorem simplifyNode (confines : Confines setting bound allowed) {mapped : List ν}
    (confined : Confined bound allowed current ledger)
    (size : (Tree.children current).length = mapped.length) (below : ∀ child ∈ mapped, bound child) :
    WhenReturns (simplifyNode setting root current mapped) ledger (Confined bound allowed) := by
  refine .bind ((confines.rebuild confined size below).imp ?_)
  intro rebuilt middle reached
  refine .bind ((confines.fixpoint reached).imp ?_)
  intro outcome after reached
  split
  · exact trivial
  · exact .pure reached

/-- If simplification returns, then a node like the root, under allowed conditions. -/
theorem simplify (confines : Confines setting bound allowed) (known : bound root) {session : Session σ} :
    WhenReturns (simplify setting root) session fun simplified _ =>
      bound simplified.value ∧ ∀ condition ∈ simplified.constraint.conditions, allowed condition := by
  have driven (node : ν) (known : bound node) (ledger : Ledger ν σ)
      (records : ledger.constraints.RecordsOnly allowed) :
      WhenReturns (Tree.fold (QueryOptimizer.simplifyNode setting root) node) ledger
        (Confined bound allowed) := by
    -- The nodes share one ledger, and so each is visited with whatever those before it have recorded.
    induction node using Tree.childInduction generalizing ledger with
    | step node ih =>
      rw [Tree.fold_eq]
      have visited := Ends.mapM_forall (Tree.children node) (fun child member ledger records =>
        (ih child member (confines.children node known child member) ledger records).imp
          fun _ _ reached => reached.parts) records
      refine .bind (visited.imp ?_)
      intro mapped middle outcome
      obtain ⟨records, size, below⟩ := outcome
      exact confines.simplifyNode ⟨records, known⟩ size.symm below
  unfold QueryOptimizer.simplify
  rw [Tree.mapPostOrder_eq_fold]
  refine .bind (onFreshLedger_ends ((driven root known _ recordsOnly_empty).imp ?_))
  intro result after reached
  exact .pure ⟨reached.known, reached.records.collected result⟩

theorem exploreRound (confines : Confines setting bound allowed) {visit : ν → ν → Run ν σ ν}
    (visits : ∀ root child (ledger : Ledger ν σ), Confined bound allowed child ledger →
      WhenReturns (visit root child) ledger (Confined bound allowed))
    (outermost : Bool) (again : ν → Run ν σ ν)
    (goes : ∀ node (ledger : Ledger ν σ), Confined bound allowed node ledger →
      WhenReturns (again node) ledger (Confined bound allowed))
    (confined : Confined bound allowed current ledger) :
    WhenReturns (exploreRound setting visit root outermost again current) ledger (Confined bound allowed) := by
  have visited := Ends.mapM_forall (Tree.children current) (fun child member ledger records =>
    (visits (if outermost then current else root) child ledger
      ⟨records, confines.children current confined.known child member⟩).imp
        fun _ _ reached => reached.parts) confined.records
  refine .bind (visited.imp ?_)
  intro mapped middle outcome
  obtain ⟨records, size, below⟩ := outcome
  refine .bind ((confines.rebuild ⟨records, confined.known⟩ size.symm below).imp ?_)
  intro rebuilt later reached
  extract_lets callRoot rest
  have goesOn (ledger : Ledger ν σ) (reached : Confined bound allowed rebuilt ledger) :
      WhenReturns (rest ()) ledger (Confined bound allowed) := by
    refine .bind ((confines.fixpoint reached).imp ?_)
    intro outcome after arrived
    split
    · exact .pure arrived
    · exact goes outcome.node after arrived
  by_cases same : sameNode rebuilt current = true
  · simp only [same]
    exact goesOn later reached
  · simp only [same]
    exact .bind (.of_eq rfl (goesOn _ ⟨reached.records.carry current rebuilt, reached.known⟩))

theorem exploreRounds (confines : Confines setting bound allowed) (limits : Limits)
    {visit : ν → ν → Run ν σ ν}
    (visits : ∀ root child (ledger : Ledger ν σ), Confined bound allowed child ledger →
      WhenReturns (visit root child) ledger (Confined bound allowed))
    (outermost : Bool) (remaining : Nat) (confined : Confined bound allowed current ledger) :
    WhenReturns (exploreRounds setting limits visit root outermost remaining current) ledger
      (Confined bound allowed) := by
  induction remaining generalizing current ledger with
  | zero => exact confines.exploreRound visits outermost _ (fun _ _ _ => True.intro) confined
  | succ remaining ih => exact confines.exploreRound visits outermost _ (fun _ _ => ih) confined

theorem explore (confines : Confines setting bound allowed) (limits : Limits) (depth : Nat)
    (confined : Confined bound allowed current ledger) :
    WhenReturns (explore setting limits depth root current) ledger (Confined bound allowed) := by
  induction depth generalizing root current ledger with
  | zero => exact True.intro
  | succ depth ih =>
    unfold QueryOptimizer.explore
    exact confines.exploreRounds limits (fun _ _ _ => ih) _ _ confined

/-- If optimization returns, then a node like the root, under allowed conditions. -/
theorem optimize (confines : Confines setting bound allowed) (limits : Limits) (known : bound root)
    {session : Session σ} :
    WhenReturns (optimize setting limits root) session fun optimized _ =>
      bound optimized.value ∧ ∀ condition ∈ optimized.constraint.conditions, allowed condition := by
  refine .bind (onFreshLedger_ends ((confines.explore limits _ ⟨recordsOnly_empty, known⟩).imp ?_))
  intro result after reached
  by_cases same : sameNode result root = true
  · simp only [same, if_true]
    exact .pure ⟨reached.known, fun _ member => absurd member Constraint.not_mem_none⟩
  · simp only [same]
    exact .pure ⟨reached.known, reached.records.collected result⟩

end Confines
end QueryOptimizer
