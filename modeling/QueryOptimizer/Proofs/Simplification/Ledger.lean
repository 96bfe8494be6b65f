import QueryOptimizer.Proofs.Tree.Arena
import QueryOptimizer.Simplification.Ledger

/-!
What a run records. The constraint recorded for a node only gains conditions, and the one recorded for
a replacement has the conditions of all that it replaces.
-/
namespace QueryOptimizer

namespace Constraint

theorem mem_of {one other : Condition} : other ∈ (of one).conditions ↔ other = one := by
  rw [of, Std.ExtTreeSet.mem_insert, Std.LawfulEqOrd.compare_eq_iff_eq]
  simp [eq_comm]

theorem not_mem_none {condition : Condition} : condition ∉ none.conditions := by
  simp [none]

theorem ext_mem {first second : Constraint}
    (same : ∀ condition, condition ∈ first.conditions ↔ condition ∈ second.conditions) : first = second := by
  obtain ⟨conditions⟩ := first
  exact congrArg Constraint.mk (Std.ExtTreeSet.ext_mem @same)

theorem none_compose (constraint : Constraint) : none.compose constraint = constraint := by
  apply ext_mem
  intro condition
  simp [mem_compose, not_mem_none]

/-- A conjunction of constraints has exactly the conditions that some of them has. -/
theorem mem_foldl_compose {constraints : List Constraint} {first : Constraint} {condition : Condition} :
    condition ∈ (constraints.foldl compose first).conditions ↔
      condition ∈ first.conditions ∨ ∃ constraint ∈ constraints, condition ∈ constraint.conditions := by
  induction constraints generalizing first with
  | nil => simp
  | cons constraint rest ih =>
    rw [List.foldl_cons, ih, mem_compose, or_assoc]
    simp

end Constraint

namespace Table
variable {ν : Type} [Identified ν]

/-- The constraint recorded for a node: none at all, unless the node was yielded. -/
def recorded (constraints : Table ν Constraint) (node : ν) : Constraint :=
  (constraints.get? node).getD .none

/-- Later tables have every condition of earlier ones. -/
instance : Preorder (Table ν Constraint) where
  le earlier later := ∀ node, ∀ condition ∈ (earlier.recorded node).conditions,
    condition ∈ (later.recorded node).conditions
  le_refl _ _ _ member := member
  le_trans _ _ _ first second node condition member := second node condition (first node condition member)

theorem recorded_of_sameNode {constraints : Table ν Constraint} {one other : ν}
    (same : identity one = identity other) : constraints.recorded one = constraints.recorded other := by
  simp only [recorded, get?, same]

theorem recorded_attach {constraints : Table ν Constraint} {current node other : ν}
    {constraint : Constraint} {condition : Condition} :
    condition ∈ ((attachConstraint constraints current node constraint).recorded other).conditions ↔
      condition ∈ (constraints.recorded other).conditions ∨ identity node = identity other ∧
        (condition ∈ (constraints.recorded current).conditions ∨ condition ∈ constraint.conditions) := by
  let under (previous : ν) (given : Constraint) : Constraint :=
    (constraints.get? previous).elim given fun earlier => earlier.compose given
  have mem_under (previous : ν) (given : Constraint) : condition ∈ (under previous given).conditions ↔
      condition ∈ (constraints.recorded previous).conditions ∨ condition ∈ given.conditions := by
    cases found : constraints.get? previous with
    | none => simp [under, recorded, found, Constraint.not_mem_none]
    | some earlier => simp [under, recorded, found, Constraint.mem_compose]
  by_cases same : identity node = identity other
  · have attached : attachConstraint constraints current node constraint =
        constraints.insert node (under node (under current constraint)) := by
      simp only [attachConstraint, under]
      cases constraints.get? node <;> cases constraints.get? current <;> rfl
    rw [recorded, attached, get?_insert, if_pos same, Option.getD_some, mem_under, mem_under,
      recorded_of_sameNode same]
    simp [same]
  · rw [recorded, attachConstraint, get?_insert, if_neg same]
    simp [same, recorded]

theorem le_attach (constraints : Table ν Constraint) (current node : ν) (constraint : Constraint) :
    constraints ≤ attachConstraint constraints current node constraint :=
  fun _ _ member => recorded_attach.mpr (.inl member)

theorem get?_attach_of_ne {constraints : Table ν Constraint} {current node other : ν} {constraint : Constraint}
    (different : identity node ≠ identity other) :
    (attachConstraint constraints current node constraint).get? other = constraints.get? other := by
  rw [attachConstraint, get?_insert, if_neg different]

theorem get?_carry_of_ne {constraints : Table ν Constraint} {node copy other : ν}
    (different : identity copy ≠ identity other) :
    (carryConstraint constraints node copy).get? other = constraints.get? other := by
  unfold carryConstraint
  split
  · rw [get?_insert, if_neg different]
  · rfl

/-- Carried over to a node that has no constraint, the conditions of a node are recorded for that one as
well. -/
theorem recorded_carry {constraints : Table ν Constraint} {node copy other : ν} {condition : Condition}
    (bare : constraints.get? copy = none) :
    condition ∈ ((carryConstraint constraints node copy).recorded other).conditions ↔
      condition ∈ (constraints.recorded other).conditions ∨
        identity copy = identity other ∧ condition ∈ (constraints.recorded node).conditions := by
  by_cases same : identity copy = identity other
  · have nothing : constraints.recorded copy = .none := by
      rw [recorded, bare, Option.getD_none]
    rw [← recorded_of_sameNode same, ← recorded_of_sameNode same, nothing]
    cases found : constraints.get? node with
    | none => simp [carryConstraint, recorded, found, bare, Constraint.not_mem_none]
    | some constraint => simp [carryConstraint, recorded, found, get?_insert, same, Constraint.not_mem_none]
  · simp [recorded, get?_carry_of_ne same, same]

end Table

/-- The constraint that a call carries over from nodes has the conditions recorded for each of them. -/
theorem Call.mem_carried {ν : Type} [Identified ν] {call : Call ν} {nodes : List ν} {condition : Condition} :
    condition ∈ (call.carried nodes).conditions ↔
      ∃ node ∈ nodes, condition ∈ (call.constraints.recorded node).conditions := by
  have folded : call.carried nodes = (nodes.map call.constraints.recorded).foldl Constraint.compose .none := by
    rw [List.foldl_map]
    rfl
  rw [folded, Constraint.mem_foldl_compose]
  simp [Constraint.not_mem_none]

section Ledger
variable {ν ω σ : Type} [Tree ν ω]

/-- The constraint collected for a tree has the conditions recorded for each of its nodes. -/
theorem mem_collectConstraints {constraints : Table ν Constraint} {root : ν} {condition : Condition} :
    condition ∈ (collectConstraints constraints root).conditions ↔
      ∃ node ∈ Tree.postOrder root, condition ∈ (constraints.recorded node).conditions := by
  rw [collectConstraints, Constraint.mem_foldl_compose]
  simp only [Constraint.not_mem_none, false_or, List.mem_filter, List.mem_filterMap]
  constructor
  · intro collected
    obtain ⟨constraint, ⟨⟨node, within, found⟩, -⟩, member⟩ := collected
    exact ⟨node, within, by simpa [Table.recorded, found] using member⟩
  · intro recorded
    obtain ⟨node, within, member⟩ := recorded
    cases found : constraints.get? node with
    | none => simp [Table.recorded, found, Constraint.not_mem_none] at member
    | some constraint =>
      have member : condition ∈ constraint.conditions := by simpa [Table.recorded, found] using member
      exact ⟨constraint, ⟨⟨node, within, found⟩, Constraint.isConstrained_iff.mpr ⟨condition, member⟩⟩, member⟩

/-- The call of a rule on one match, as the driver makes it. -/
def Ledger.call (ledger : Ledger ν σ) (environment : Environment) (rule : SimplificationRule ν ω σ)
    (root current : ν) (bindings : Bindings ν) : Call ν :=
  { rule := rule.name, root, current, bindings, environment, constraints := ledger.constraints }

/-- The ledger after a rule left the session as `session` and yielded `node` in place of `current`. -/
def Ledger.yielded (ledger : Ledger ν σ) (session : Session σ) (current node : ν) (constraint : Constraint) :
    Ledger ν σ :=
  { toSession := session
    constraints := attachConstraint ledger.constraints current node constraint }

/-- What the driver makes of an answer: it takes over one node at most, and rejects more. -/
def Ledger.Takes (ledger : Ledger ν σ) (rule : String) (current : ν)
    (returns : Option (Yielded ν) → Ledger ν σ → Prop) (stops : Interruption → Ledger ν σ → Prop)
    (response : Response ν) (session : Session σ) : Prop :=
  match response.results with
  | [] => returns none { ledger with toSession := session }
  | [node] =>
    returns (some ⟨node, response.reExplore⟩) (ledger.yielded session current node response.constraint)
  | results => stops (.error (.ambiguousYield rule results.length)) { ledger with toSession := session }

/-- A call ends as its rule does, with what the driver makes of the answer. -/
theorem callRule_takes {environment : Environment} {rule : SimplificationRule ν ω σ} {root current : ν}
    {bindings : Bindings ν} {ledger : Ledger ν σ} {returns : Option (Yielded ν) → Ledger ν σ → Prop}
    {stops : Interruption → Ledger ν σ → Prop}
    (answers : Ends (rule.action (ledger.call environment rule root current bindings)) ledger.toSession
      (ledger.Takes rule.name current returns stops)
      (fun interruption session => stops interruption { ledger with toSession := session })) :
    Ends (callRule environment rule root current bindings) ledger returns stops := by
  have ran : Ends (Run.ofRule (rule.action (ledger.call environment rule root current bindings))) ledger
      (fun response after => after.constraints = ledger.constraints ∧
        ledger.Takes rule.name current returns stops response after.toSession) stops := by
    unfold Ends Run.ofRule at *
    cases found : rule.action (ledger.call environment rule root current bindings) ledger.toSession with
    | ok response session => simpa only [found, true_and] using answers
    | error interruption session => simpa only [found] using answers
  refine .bind (.of_eq rfl ?_)
  refine .bind (ran.imp ?_)
  rintro ⟨results, constraint, reExplore⟩ ⟨session, constraints⟩ ⟨unchanged, taken⟩
  simp only at unchanged
  subst unchanged
  match results with
  | [] => exact taken
  | [node] => exact taken
  | _ :: _ :: _ => exact taken

/-- A call ends as its rule does, if that answers with at most one node. -/
theorem callRule_ends {environment : Environment} {rule : SimplificationRule ν ω σ} {root current : ν}
    {bindings : Bindings ν} {ledger : Ledger ν σ} {returns : Option (Yielded ν) → Ledger ν σ → Prop}
    {stops : Interruption → Ledger ν σ → Prop}
    (answers : Ends (rule.action (ledger.call environment rule root current bindings)) ledger.toSession
      (fun response session =>
        (response.results = [] ∧ returns none { ledger with toSession := session }) ∨
        ∃ node, response.results = [node] ∧ returns (some ⟨node, response.reExplore⟩)
          (ledger.yielded session current node response.constraint))
      (fun interruption session => stops interruption { ledger with toSession := session })) :
    Ends (callRule environment rule root current bindings) ledger returns stops := by
  refine callRule_takes (answers.imp ?_)
  intro response session answered
  unfold Ledger.Takes
  rcases answered with ⟨empty, met⟩ | ⟨node, single, met⟩
  · rw [empty]
    exact met
  · rw [single]
    exact met

/-- A call that returns has asked its rule, and has recorded a constraint for the node it returns. -/
theorem callRule_answered (environment : Environment) (rule : SimplificationRule ν ω σ) (root current : ν)
    (bindings : Bindings ν) (ledger : Ledger ν σ) :
    WhenReturns (callRule environment rule root current bindings) ledger fun yielded? after =>
      ∃ response session,
        rule.action (ledger.call environment rule root current bindings) ledger.toSession =
            .ok response session ∧
          ((response.results = [] ∧ yielded? = none ∧ after = { ledger with toSession := session }) ∨
            ∃ node, response.results = [node] ∧ yielded? = some ⟨node, response.reExplore⟩ ∧
              after = ledger.yielded session current node response.constraint) := by
  refine callRule_takes (whenReturns_iff.mpr ?_)
  intro response session found
  unfold Ledger.Takes
  split
  · rename_i empty
    exact ⟨response, session, found, .inl ⟨empty, rfl, rfl⟩⟩
  · rename_i node single
    exact ⟨response, session, found, .inr ⟨node, single, rfl, rfl⟩⟩
  · trivial

/-- A run on a fresh ledger ends as it does there, and gives the constraints it recorded as well. -/
theorem onFreshLedger_ends {run : Run ν σ α} {session : Session σ}
    {returns : α × Table ν Constraint → Session σ → Prop} {stops : Interruption → Session σ → Prop}
    (ends : Ends run { toSession := session }
      (fun result after => returns (result, after.constraints) after.toSession)
      (fun interruption after => stops interruption after.toSession)) :
    Ends run.onFreshLedger session returns stops := by
  unfold Ends Run.onFreshLedger at *
  cases found : run { toSession := session } with
  | ok result after => simpa only [found] using ends
  | error interruption after => simpa only [found] using ends

theorem onFreshLedger_of_ok {run : Run ν σ α} {session : Session σ} {result : α} {after : Ledger ν σ}
    (found : run { toSession := session } = .ok result after) :
    run.onFreshLedger session = .ok (result, after.constraints) after.toSession := by
  unfold Run.onFreshLedger
  rw [found]

theorem onFreshLedger_of_error {run : Run ν σ α} {session : Session σ} {interruption : Interruption}
    {after : Ledger ν σ} (found : run { toSession := session } = .error interruption after) :
    run.onFreshLedger session = .error interruption after.toSession := by
  unfold Run.onFreshLedger
  rw [found]

end Ledger
end QueryOptimizer
