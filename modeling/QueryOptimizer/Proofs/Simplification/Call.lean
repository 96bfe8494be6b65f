import QueryOptimizer.Proofs.Simplification.Ledger
import QueryOptimizer.Simplification.Fixpoint

/-!
What single rules answer. A rule conforms to a relation of steps if every call of it on a match either
declines, having drawn identities at most, or yields one node that the relation allows.
-/
namespace QueryOptimizer
variable {ν ω σ : Type} [Tree ν ω]

/-- The constraint has every condition that is recorded for one of the nodes. -/
def Carries (constraints : Table ν Constraint) (constraint : Constraint) (nodes : List ν) : Prop :=
  ∀ node ∈ nodes, ∀ condition ∈ (constraints.recorded node).conditions, condition ∈ constraint.conditions

theorem Call.carries_carried (call : Call ν) (nodes : List ν) :
    Carries call.constraints (call.carried nodes) nodes :=
  fun node member _ recorded => mem_carried.mpr ⟨node, member, recorded⟩

/-- The rule declined, having drawn identities at most, or it took a step; `reExplore` says whether it
asks for its replacement to be explored again. -/
def Answers (reExplore : Bool) (declined : Prop) (step : ν → Constraint → Session σ → Prop)
    (session : Session σ) (response : Response ν) (after : Session σ) : Prop :=
  (response.results = [] ∧ session.supply.allocated ≤ after.supply.allocated ∧ declined) ∨
    ∃ node, response.results = [node] ∧ response.reExplore = reExplore ∧ step node response.constraint after

theorem Answers.nothing {reExplore : Bool} {declined : Prop} {step : ν → Constraint → Session σ → Prop}
    {session after : Session σ} (more : session.supply.allocated ≤ after.supply.allocated) (idle : declined) :
    Answers reExplore declined step session .nothing after :=
  .inl ⟨rfl, more, idle⟩

theorem Answers.only {declined : Prop} {step : ν → Constraint → Session σ → Prop} {session after : Session σ}
    {node : ν} {constraint : Constraint} (taken : step node constraint after) :
    Answers false declined step session (.only node constraint) after := by
  refine .inr ⟨node, rfl, rfl, ?_⟩
  show step node (Constraint.none.compose constraint) after
  rwa [Constraint.none_compose]

variable [DecidableEq ω]

/-- Every call on a match declines or takes a step. -/
def Conforms (environment : Environment) (rule : SimplificationRule ν ω σ) (reExplore : Bool)
    (declines : ν → Prop)
    (step : Table ν Constraint → Session σ → ν → ν → Constraint → Session σ → Prop) : Prop :=
  ∀ (call : Call ν) (session : Session σ), call.environment = environment →
    call.bindings ∈ rule.pattern.allMatches .empty call.current →
    Returns (rule.action call) session
      (Answers reExplore (declines call.current) (step call.constraints session call.current) session)

namespace Conforms
variable {environment : Environment} {rule : SimplificationRule ν ω σ} {reExplore : Bool}
variable {declines : ν → Prop}
variable {step : Table ν Constraint → Session σ → ν → ν → Constraint → Session σ → Prop}

theorem declining {weaker : ν → Prop} (conforms : Conforms environment rule reExplore declines step)
    (idle : ∀ node, declines node → weaker node) : Conforms environment rule reExplore weaker step := by
  intro call session same matched
  refine (conforms call session same matched).imp ?_
  intro response after answered
  rcases answered with ⟨empty, more, declined⟩ | taken
  · exact .inl ⟨empty, more, idle _ declined⟩
  · exact .inr taken

/-- The driver's call of a conforming rule records nothing, or one step. -/
theorem callRule (conforms : Conforms environment rule reExplore declines step) (root : ν) {current : ν}
    {bindings : Bindings ν} (matched : bindings ∈ rule.pattern.allMatches .empty current)
    (ledger : Ledger ν σ) :
    Returns (callRule environment rule root current bindings) ledger fun yielded? after =>
      (∃ session, yielded? = none ∧ after = { ledger with toSession := session } ∧
        ledger.supply.allocated ≤ session.supply.allocated ∧ declines current) ∨
      ∃ node constraint session, yielded? = some ⟨node, reExplore⟩ ∧
        after = ledger.yielded session current node constraint ∧
        step ledger.constraints ledger.toSession current node constraint session := by
  apply callRule_ends
  refine (conforms (ledger.call environment rule root current bindings) ledger.toSession rfl matched).imp ?_
  intro response session answered
  rcases answered with ⟨empty, more, declined⟩ | ⟨node, single, asks, taken⟩
  · exact .inl ⟨empty, .inl ⟨session, rfl, rfl, more, declined⟩⟩
  · refine .inr ⟨node, single, .inr ⟨node, response.constraint, session, ?_, rfl, taken⟩⟩
    rw [asks]

end Conforms

/-- The rules of a set are called only on matches of their patterns. -/
theorem mem_applications {α : Type} {rules : RuleSet ν ω α} {node : ν} {application : Rule ν ω α × Bindings ν} :
    application ∈ applications rules node ↔
      (application.1 ∈ rules.rules ∧ application.1.rootOperator?.all (· = Tree.operator node)) ∧
        application.2 ∈ application.1.pattern.allMatches .empty node := by
  obtain ⟨rule, bindings⟩ := application
  simp only [applications, RuleSet.candidates, List.mem_flatMap, List.mem_filter, List.mem_map, Prod.mk.injEq]
  constructor
  · intro made
    obtain ⟨_, candidate, _, matched, rfl, rfl⟩ := made
    exact ⟨candidate, matched⟩
  · intro found
    obtain ⟨candidate, matched⟩ := found
    exact ⟨rule, candidate, bindings, matched, rfl, rfl⟩

end QueryOptimizer
