import Mathlib
import QueryOptimizer.Proofs.Rule.Contract
import QueryOptimizer.Proofs.Simplification.Projection

/-!
Alternatives to a node. Each of them comes from one call that is made with no constraints recorded, so that it is
valid under what this call attached and under nothing else. If calls do not depend on what went before, then neither
do the alternatives.
-/
namespace QueryOptimizer

/-- The same, with the value replaced by what `f` makes of it. -/
def Constrained.map {α β : Type} (f : α → β) (constrained : Constrained α) : Constrained β :=
  ⟨f constrained.value, constrained.constraint⟩

variable {ν ω σ φ : Type}

/-- The call of one application of a rule to `current`, as it is made if no constraint has been recorded yet. -/
def Call.apart (environment : Environment) (current : ν) (application : SimplificationRule ν ω σ × Bindings ν) :
    Call ν :=
  { rule := application.1.name, root := current, current, bindings := application.2, environment
    constraints := .empty }

namespace Response

/-- The alternative to `current` that the answer is: the node that it yields, unless that is `current` itself, under
the constraint of the answer. -/
def alternative? [Identified ν] (current : ν) (response : Response ν) : Option (Constrained ν) :=
  match response.results with
  | [node] => if sameNode node current then none else some ⟨node, response.constraint⟩
  | _ => none

/-- What is made of the answer of a rule: it is an alternative at most, and more than one node is rejected. -/
def settle [Identified ν] (rule : String) (current : ν) (response : Response ν) : RuleM σ (Option (Constrained ν)) :=
  if response.results.length ≤ 1 then return response.alternative? current
  else raise (.ambiguousYield rule response.results.length)

theorem settle_eq_ok_iff [Identified ν] {rule : String} {current : ν} {response : Response ν}
    {alternative? : Option (Constrained ν)} {session after : Session σ} :
    response.settle rule current session = .ok alternative? after ↔
      response.results.length ≤ 1 ∧ alternative? = response.alternative? current ∧ after = session := by
  unfold settle
  split
  · rename_i single
    constructor
    · intro returned
      cases returned
      exact ⟨single, rfl, rfl⟩
    · intro settled
      obtain ⟨-, rfl, rfl⟩ := settled
      rfl
  · rename_i ambiguous
    constructor
    · intro returned
      cases returned
    · intro settled
      exact absurd settled.1 ambiguous

/-- What there is to see in an answer if nodes are seen through `form`: the nodes that it yields, whether each of
them is `current` itself, and the constraint. -/
def seen [Identified ν] (form : ν → φ) (current : ν) (response : Response ν) : List (φ × Bool) × Constraint :=
  (response.results.map fun node => (form node, sameNode node current), response.constraint)

/-- What is made of an answer depends on what there is to see in it. -/
theorem observed_settle_congr [Identified ν] {form : ν → φ} {current : ν} {one other : Response ν}
    (same : one.seen form current = other.seen form current) (rule : String) (session later : Session σ) :
    observed (Option.map (Constrained.map form)) (one.settle rule current) session =
      observed (Option.map (Constrained.map form)) (other.settle rule current) later := by
  obtain ⟨results, constraint, _⟩ := one
  obtain ⟨others, otherConstraint, _⟩ := other
  simp only [seen, Prod.mk.injEq] at same
  obtain ⟨alike, rfl⟩ := same
  have sizes : results.length = others.length := by simpa using congrArg List.length alike
  match results, others with
  | [], [] => rfl
  | [node], [twin] =>
    simp only [List.map_cons, List.map_nil, List.cons.injEq, Prod.mk.injEq, and_true] at alike
    obtain ⟨forms, places⟩ := alike
    show Except.ok _ = Except.ok _
    simp only [alternative?, places]
    split
    · rfl
    · simp only [Option.map_some, Constrained.map, forms]
  | first :: second :: rest, _ =>
    have many : ¬ (first :: second :: rest).length ≤ 1 := by simp
    simp only [settle, ← sizes, if_neg many]
    rfl

end Response

variable [Tree ν ω]

/-- A constraint that is recorded when no other one is, is what is collected. -/
theorem collectConstraints_attach_empty (current node : ν) (constraint : Constraint) :
    collectConstraints (attachConstraint .empty current node constraint) node = constraint := by
  refine Constraint.ext_mem fun condition => ?_
  have recorded (other : ν) :
      condition ∈ ((attachConstraint (.empty : Table ν Constraint) current node constraint).recorded other).conditions ↔
        identity node = identity other ∧ condition ∈ constraint.conditions := by
    rw [Table.recorded_attach]
    simp [Table.recorded, Constraint.not_mem_none]
  rw [mem_collectConstraints]
  constructor
  · intro collected
    obtain ⟨other, -, member⟩ := collected
    exact ((recorded other).mp member).2
  · intro member
    exact ⟨node, Tree.root_mem_postOrder node, (recorded node).mpr ⟨rfl, member⟩⟩

section Calls
variable {environment : Environment} {rule : SimplificationRule ν ω σ} {root current : ν} {bindings : Bindings ν}
variable {ledger : Ledger ν σ} {session : Session σ}

theorem callRule_of_ok {response : Response ν}
    (answered : rule.action (ledger.call environment rule root current bindings) ledger.toSession =
      .ok response session) :
    callRule environment rule root current bindings ledger =
      takeAnswer rule.name current response { ledger with toSession := session } := by
  rw [callRule_eq]
  refine bind_of_ok ?_
  simp only [Run.ofRule, answered]

theorem callRule_of_error {interruption : Interruption}
    (failed : rule.action (ledger.call environment rule root current bindings) ledger.toSession =
      .error interruption session) :
    callRule environment rule root current bindings ledger =
      .error interruption { ledger with toSession := session } := by
  rw [callRule_eq]
  refine bind_of_error ?_
  simp only [Run.ofRule, failed]

end Calls

/-- An application of a rule is a call apart from all others, and what is made of its answer. -/
theorem alternative?_eq (environment : Environment) (current : ν)
    (application : SimplificationRule ν ω σ × Bindings ν) :
    alternative? environment current application =
      application.1.action (Call.apart environment current application) >>=
        Response.settle application.1.name current := by
  funext session
  let ledger : Ledger ν σ := { toSession := session }
  unfold alternative?
  cases found : application.1.action (Call.apart environment current application) session with
  | error interruption after =>
    have failed : callRule environment application.1 current current application.2 ledger =
        .error interruption { ledger with toSession := after } := callRule_of_error found
    rw [bind_of_error found, bind_of_error (onFreshLedger_of_error failed)]
  | ok response middle =>
    have answered : callRule environment application.1 current current application.2 ledger = _ :=
      callRule_of_ok found
    rw [bind_of_ok found]
    obtain ⟨results, constraint, reExplore⟩ := response
    match results with
    | [] =>
      rw [bind_of_ok (onFreshLedger_of_ok answered)]
      rfl
    | [node] =>
      rw [bind_of_ok (onFreshLedger_of_ok answered)]
      have own : collectConstraints (attachConstraint ledger.constraints current node constraint) node = constraint :=
        collectConstraints_attach_empty current node constraint
      show EStateM.Result.ok _ _ = EStateM.Result.ok _ _
      cases same : sameNode node current with
      | true => simp [Response.alternative?, same]
      | false => simp [Response.alternative?, same, own]
    | first :: second :: rest =>
      rw [bind_of_error (onFreshLedger_of_error answered)]
      have many : ¬ (first :: second :: rest).length ≤ 1 := by simp
      simp only [Response.settle, if_neg many]
      rfl

/-- What is seen of one application of a rule to `current`, in the session that is given for the rule. -/
def observedAlternative? (environment : Environment) (form : ν → φ) (current : ν)
    (sessions : SimplificationRule ν ω σ → Session σ) (application : SimplificationRule ν ω σ × Bindings ν) :
    Except Interruption (Option (Constrained φ)) :=
  observed (Option.map (Constrained.map form)) (alternative? environment current application) (sessions application.1)

variable [DecidableEq ω]

/-- What comes of applying rules once: the rules have been called one after the other, none of them has yielded more
than one node, and the alternatives are those that their answers are. -/
theorem simplifyCurrent_eq_ok_iff {environment : Environment}
    {rules : RuleSet ν ω (Call ν → RuleM σ (Response ν))} {current : ν} {session after : Session σ}
    {alternatives : List (Constrained ν)} :
    simplifyCurrent environment rules current session = .ok alternatives after ↔
      ∃ responses, (applications rules current).mapM
          (fun application => application.1.action (Call.apart environment current application)) session =
            .ok responses after ∧
        (∀ response ∈ responses, response.results.length ≤ 1) ∧
        alternatives = responses.filterMap (Response.alternative? current) := by
  have applied : alternative? environment current = fun application : SimplificationRule ν ω σ × Bindings ν =>
      application.1.action (Call.apart environment current application) >>=
        Response.settle application.1.name current :=
    funext (alternative?_eq environment current)
  have settles (application : SimplificationRule ν ω σ × Bindings ν) (response : Response ν)
      (alternative? : Option (Constrained ν)) (state after : Session σ) :
      response.settle application.1.name current state = .ok alternative? after ↔
        response.results.length ≤ 1 ∧ alternative? = response.alternative? current ∧ after = state :=
    Response.settle_eq_ok_iff
  unfold simplifyCurrent
  rw [applied, bind_eq_ok_iff]
  simp only [mapM_settled_iff settles]
  constructor
  · intro returned
    obtain ⟨_, _, ⟨responses, ran, single, rfl⟩, ended⟩ := returned
    cases ended
    exact ⟨responses, ran, single, List.filterMap_map⟩
  · intro answered
    obtain ⟨responses, ran, single, rfl⟩ := answered
    exact ⟨_, _, ⟨responses, ran, single, rfl⟩, congrArg (EStateM.Result.ok · after) List.filterMap_map⟩

/-- The rules of a list are applied one after the other. -/
theorem applications_eq_flatMap {α : Type} (rules : List (Rule ν ω α)) (node : ν) :
    applications ⟨rules⟩ node = rules.flatMap fun rule => applications ⟨[rule]⟩ node := by
  induction rules with
  | nil => rfl
  | cons rule rest ih =>
    rw [List.flatMap_cons, ← ih]
    simp only [applications, RuleSet.candidates, ← List.flatMap_append, ← List.filter_append, List.singleton_append]

section Promises
variable (settled : Set ν → Session σ → Prop) (environment : Environment) (rule : SimplificationRule ν ω σ)

/-- The rule never fails, and it yields one node at most. -/
def NeverFails : Prop :=
  ∀ nodes call session, CalledIn settled environment rule nodes call session →
    Returns (rule.action call) session fun response _ => response.results.length ≤ 1

/-- What is seen of the rule depends on nothing but its call: in whatever sessions one call is made, it fails in the
same way, or it yields nodes of the same forms, the current node in the same places, and under the same constraint.
Identities of new nodes are left open. -/
def DependsOnCall (form : ν → φ) : Prop :=
  ∀ nodes others call session later, CalledIn settled environment rule nodes call session →
    CalledIn settled environment rule others call later →
      observed (Response.seen form call.current) (rule.action call) session =
        observed (Response.seen form call.current) (rule.action call) later

end Promises

section Runs
variable {settled : Set ν → Session σ → Prop} {environment : Environment} {form : ν → φ}
variable {rules : RuleSet ν ω (Call ν → RuleM σ (Response ν))} {current : ν}
variable {application : SimplificationRule ν ω σ × Bindings ν} (member : application ∈ applications rules current)
include member

theorem calledIn_apart {nodes : Set ν} {session : Session σ} (settles : settled nodes session)
    (present : current ∈ nodes) :
    CalledIn settled environment application.1 nodes (Call.apart environment current application) session := by
  let ledger : Ledger ν σ := { toSession := session }
  show CalledIn settled environment application.1 nodes
    (ledger.call environment application.1 current current application.2) ledger.toSession
  exact calledIn_of_mem_applications environment member settles present present

theorem alternative?_keeps (existing : YieldsExisting settled environment application.1) {nodes : Set ν}
    {session : Session σ} (settles : settled nodes session) (present : current ∈ nodes) :
    WhenReturns (alternative? environment current application) session fun _ after =>
      ∃ wider, nodes ⊆ wider ∧ settled wider after := by
  rw [alternative?_eq]
  refine .bind ((existing _ _ _ (calledIn_apart member settles present)).imp ?_)
  intro response after existing
  obtain ⟨wider, included, settling, -⟩ := existing
  refine whenReturns_iff.mpr fun final last returned => ?_
  obtain ⟨-, -, rfl⟩ := Response.settle_eq_ok_iff.mp returned
  exact ⟨wider, included, settling⟩

/-- What is seen of an application does not depend on the session it is made in. -/
theorem observed_alternative?_congr (dependent : DependsOnCall settled environment application.1 form)
    {nodes others : Set ν} {session later : Session σ} (settles : settled nodes session) (present : current ∈ nodes)
    (settling : settled others later) (occurs : current ∈ others) :
    observed (Option.map (Constrained.map form)) (alternative? environment current application) session =
      observed (Option.map (Constrained.map form)) (alternative? environment current application) later := by
  have same := dependent _ _ _ _ _ (calledIn_apart member settles present) (calledIn_apart member settling occurs)
  rw [alternative?_eq]
  exact observed_bind_congr same fun one other alike session later =>
    Response.observed_settle_congr alike application.1.name session later

end Runs

section Whole
variable {settled : Set ν → Session σ → Prop} {environment : Environment} {form : ν → φ}
variable {rules : RuleSet ν ω (Call ν → RuleM σ (Response ν))} {current : ν}
variable (existing : ∀ rule ∈ rules.rules, YieldsExisting settled environment rule)
variable {nodes : Set ν} {session : Session σ} (settles : settled nodes session) (present : current ∈ nodes)
include existing settles present

/-- Rules that never fail give alternatives. -/
theorem simplifyCurrent_returns (unfailing : ∀ rule ∈ rules.rules, NeverFails settled environment rule) :
    ∃ alternatives after, simplifyCurrent environment rules current session = .ok alternatives after := by
  let fits (session : Session σ) : Prop := ∃ nodes, settled nodes session ∧ current ∈ nodes
  have answered : Returns ((applications rules current).mapM fun application =>
      application.1.action (Call.apart environment current application)) session fun responses after =>
        fits after ∧ responses.length = (applications rules current).length ∧
          ∀ response ∈ responses, response.results.length ≤ 1 := by
    refine Ends.mapM_forall _ ?_ ⟨nodes, settles, present⟩
    intro application member session fit
    obtain ⟨nodes, settles, present⟩ := fit
    have listed := (mem_applications.mp member).1.1
    have called : CalledIn settled environment application.1 nodes (Call.apart environment current application)
        session := calledIn_apart member settles present
    refine ((unfailing _ listed _ _ _ called).and (existing _ listed _ _ _ called)).mono ?_ fun _ _ stopped => stopped.1
    intro response after answered
    obtain ⟨single, wider, included, settling, -⟩ := answered
    exact ⟨⟨wider, settling, included present⟩, single⟩
  obtain ⟨responses, after, ran, -, -, single⟩ := answered.returned
  exact ⟨_, after, simplifyCurrent_eq_ok_iff.mpr ⟨responses, ran, single, rfl⟩⟩

/-- What is seen of all applications of rules is what is seen of each of them, in whatever sessions. -/
theorem observed_simplifyCurrent (dependent : ∀ rule ∈ rules.rules, DependsOnCall settled environment rule form)
    {sessions : SimplificationRule ν ω σ → Session σ}
    (settling : ∀ rule ∈ rules.rules, ∃ others, settled others (sessions rule) ∧ current ∈ others) :
    observed (List.map (Constrained.map form)) (simplifyCurrent environment rules current) session =
      List.filterMap id <$> (applications rules current).mapM
        (observedAlternative? environment form current sessions) := by
  let fits (session : Session σ) : Prop := ∃ nodes, settled nodes session ∧ current ∈ nodes
  have each : observed (List.map (Option.map (Constrained.map form)))
      ((applications rules current).mapM (alternative? environment current)) session =
        (applications rules current).mapM (observedAlternative? environment form current sessions) := by
    refine observed_mapM fits (applications rules current) ?_ ?_ ⟨nodes, settles, present⟩
    · intro application member session fit
      obtain ⟨nodes, settles, present⟩ := fit
      refine (alternative?_keeps member (existing _ (mem_applications.mp member).1.1) settles present).imp ?_
      intro _ after kept
      obtain ⟨wider, included, settling⟩ := kept
      exact ⟨wider, settling, included present⟩
    · intro application member session fit
      obtain ⟨nodes, settles, present⟩ := fit
      have listed := (mem_applications.mp member).1.1
      obtain ⟨others, settling, occurs⟩ := settling _ listed
      exact observed_alternative?_congr member (dependent _ listed) settles present settling occurs
  have kept (found : List (Option (Constrained ν))) : (found.filterMap id).map (Constrained.map form) =
      (found.map (Option.map (Constrained.map form))).filterMap id := by
    rw [List.map_filterMap, List.filterMap_map]
    rfl
  unfold simplifyCurrent
  rw [observed_bind_pure]
  simp only [kept]
  rw [observed_map (List.map (Option.map (Constrained.map form))) (List.filterMap id), each]

end Whole

end QueryOptimizer
