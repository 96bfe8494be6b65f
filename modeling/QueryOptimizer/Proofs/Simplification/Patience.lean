import Mathlib
import QueryOptimizer.Proofs.Simplification.Call
import QueryOptimizer.Proofs.Simplification.Driving
import QueryOptimizer.Proofs.Simplification.Fixpoint
import QueryOptimizer.Proofs.Simplification.Noting
import QueryOptimizer.Proofs.Simplification.Results
import QueryOptimizer.Proofs.Tree.Descent

/-!
How much patience rules deserve. If every replacement that is not to be explored again has a smaller measure than
the node it replaces, then a fixpoint is reached in no more steps than that measure counts. More patience changes
nothing, and no run is cut short.
-/
namespace QueryOptimizer

/-- Wherever it is started, the computation comes to a result or an error, and does not run out of steps. -/
def Concludes {S α : Type} (computation : EStateM Interruption S α) : Prop :=
  ∀ state, Ends computation state (fun _ _ => True) fun interruption _ => interruption ≠ .outOfSteps

namespace Concludes
variable {S α β : Type} {computation : EStateM Interruption S α}

theorem pure (result : α) : Concludes (Pure.pure result : EStateM Interruption S α) :=
  fun _ => trivial

theorem raise (error : Error) : Concludes (QueryOptimizer.raise error : EStateM Interruption S α) :=
  fun _ => Interruption.noConfusion

theorem modify (change : S → S) : Concludes (modify change : EStateM Interruption S PUnit) :=
  fun _ => trivial

theorem bind {next : α → EStateM Interruption S β} (first : Concludes computation)
    (rest : ∀ result, Concludes (next result)) : Concludes (computation >>= next) :=
  fun state => .bind ((first state).imp fun result after _ => rest result after)

theorem mapM {step : α → EStateM Interruption S β} (elements : List α)
    (steps : ∀ element ∈ elements, Concludes (step element)) : Concludes (elements.mapM step) := by
  induction elements with
  | nil => exact .pure []
  | cons element rest ih =>
    rw [List.mapM_cons]
    refine (steps element (by simp)).bind fun result => ?_
    exact (ih fun other member => steps other (by simp [member])).bind fun results => .pure (result :: results)

end Concludes

variable {ν ω σ : Type} [Tree ν ω]

/-- Every call of the rule on a match comes to an end, and what it yields has a smaller measure than the current
node, unless it is that node or is to be explored again. What a rule is called with and what it yields may be more
than a call and a node. -/
def Lowers {β γ : Type} (callOf : γ → Call ν) (nodeOf : β → ν) (measure : ν → Nat) (environment : Environment)
    [DecidableEq ω] (rule : Rule ν ω (γ → RuleM σ (Response β))) : Prop :=
  ∀ (call : γ) (session : Session σ), (callOf call).environment = environment →
    (callOf call).bindings ∈ rule.pattern.allMatches .empty (callOf call).current →
    Ends (rule.action call) session
      (fun response _ => ∀ result ∈ response.results,
        ¬ sameNode (nodeOf result) (callOf call).current = true → response.reExplore = false →
          measure (nodeOf result) < measure (callOf call).current)
      fun interruption _ => interruption ≠ .outOfSteps

theorem Tree.rebuild_concludes {S : Type} [Supplied S] (node : ν) (mapped : List ν) :
    Concludes (Tree.rebuild node mapped : EStateM Interruption S ν) := by
  unfold Tree.rebuild
  split
  · exact .raise _
  · split
    · exact .pure node
    · exact fun _ => trivial

theorem Tree.mapPostOrder_concludes {S ρ : Type} {f : ν → List ρ → EStateM Interruption S ρ}
    (steps : ∀ node results, Concludes (f node results)) (root : ν) : Concludes (Tree.mapPostOrder f root) := by
  rw [mapPostOrder_eq_fold]
  induction root using childInduction with
  | step node ih =>
    rw [fold_eq]
    exact (Concludes.mapM _ ih).bind (steps node)

theorem onFreshLedger_concludes {α : Type} {run : Run ν σ α} (concludes : Concludes run) :
    Concludes run.onFreshLedger :=
  fun _ => onFreshLedger_ends (concludes _)

/-- Nothing has to be known of the ledger. -/
def AnyLedger (_ : Unit) (_ : Ledger ν σ) : Prop :=
  True

variable [DecidableEq ω]

section Rules
variable {environment : Environment} {rules : RuleSet ν ω (Call ν → RuleM σ (Response ν))} {measure : ν → Nat}
variable (lowers : ∀ rule ∈ rules.rules, Lowers id id measure environment rule)
include lowers

/-- There is nothing to be known of a node but its measure. -/
theorem lowering_conduct :
    Conduct ⟨environment, rules, measure⟩ (AnyLedger (ν := ν) (σ := σ)) (fun _ _ => True) (fun _ _ => True)
      fun interruption _ => interruption ≠ .outOfSteps := by
  refine ⟨fun _ _ _ _ _ => trivial, ?_⟩
  rintro - ledger root current - - ⟨rule, bindings⟩ member
  obtain ⟨⟨listed, -⟩, matched⟩ := mem_applications.mp member
  refine callRule_takes ((lowers rule listed (ledger.call environment rule root current bindings) ledger.toSession rfl
    matched).imp ?_)
  intro response session lower
  unfold Ledger.Takes
  split
  · exact ⟨(), trivial, trivial, by simp⟩
  · rename_i node single
    refine ⟨(), trivial, trivial, ?_⟩
    rintro yielded found different
    obtain rfl := Option.some.inj found
    unfold Advances
    split
    · trivial
    · rename_i quiet
      exact ⟨trivial, lower node (by simp [single]) different (Bool.not_eq_true _ ▸ quiet)⟩
  · exact Interruption.noConfusion

theorem fixpoint_concludes (root current : ν) :
    Concludes (fixpoint (σ := σ) ⟨environment, rules, measure⟩ root current) := by
  intro ledger
  have anyhow : AnyLedger () ledger := trivial
  have reached := (lowering_conduct lowers).fixpoint root current anyhow trivial
  exact reached.imp fun _ _ _ => trivial

/-- After a replacement, it only matters how to go on from nodes of a smaller measure. -/
theorem replaceThen_congr (root : ν) (outermost : Bool) {next other : ν → Run ν σ (Outcome ν)} {current : ν}
    (agree : ∀ node, measure node < measure current → next node = other node) :
    replaceThen environment rules root outermost next current =
      replaceThen environment rules root outermost other current := by
  funext ledger
  have anyhow : AnyLedger () ledger := trivial
  have tried := (lowering_conduct lowers).firstReplacement (if outermost then current else root) current anyhow trivial
  refine bind_congr_of_whenReturns (tried.partly.imp ?_)
  rintro replacement? after ⟨later, -, -, found⟩
  cases replacement? with
  | none => rfl
  | some replacement =>
    by_cases asked : replacement.2.reExplore = true
    · simp only [asked, if_true]
    · simp only [Finds, Advances, asked] at found
      simp only [asked, agree _ found.2]

/-- Any two numbers of steps that reach the measure of a node are as good for it. -/
theorem replaceRepeatedly_patient (root : ν) (outermost : Bool) {steps others : Nat} {current : ν}
    (enough : measure current ≤ steps) (plenty : measure current ≤ others) :
    replaceRepeatedly environment rules root outermost steps current =
      replaceRepeatedly environment rules root outermost others current := by
  induction steps generalizing others current with
  | zero =>
    cases others with
    | zero => rfl
    | succ others => exact replaceThen_congr lowers root outermost fun node lower => by omega
  | succ steps ih =>
    cases others with
    | zero => exact replaceThen_congr lowers root outermost fun node lower => by omega
    | succ others =>
      exact replaceThen_congr lowers root outermost fun node lower => ih (by omega) (by omega)

theorem fixpoint_patient {patience : ν → Nat} (patient : ∀ node, measure node ≤ patience node) :
    fixpoint ⟨environment, rules, patience⟩ = fixpoint (σ := σ) ⟨environment, rules, measure⟩ := by
  funext root current
  exact replaceRepeatedly_patient lowers root _ (patient current) (Nat.le_refl _)

theorem simplifyNode_concludes (root node : ν) (mapped : List ν) :
    Concludes (simplifyNode (σ := σ) ⟨environment, rules, measure⟩ root node mapped) := by
  refine (Tree.rebuild_concludes node mapped).bind fun current => ?_
  refine (fixpoint_concludes lowers _ current).bind fun outcome => ?_
  cases outcome.reExploredBy with
  | none => exact .pure _
  | some rule => exact .raise _

theorem simplify_concludes (root : ν) : Concludes (simplify (σ := σ) ⟨environment, rules, measure⟩ root) :=
  (onFreshLedger_concludes (Tree.mapPostOrder_concludes (simplifyNode_concludes lowers root) root)).bind
    fun _ => .pure _

/-- A round comes to an end if visits of children do, and further rounds. -/
theorem exploreRound_concludes {visit : ν → ν → Run ν σ ν} (visits : ∀ root node, Concludes (visit root node))
    (root : ν) (outermost : Bool) {again : ν → Run ν σ ν} (goes : ∀ node, Concludes (again node)) (current : ν) :
    Concludes (exploreRound ⟨environment, rules, measure⟩ visit root outermost again current) := by
  rw [← exploreRoundNoting_silent]
  refine (Concludes.mapM _ fun child _ => visits _ child).bind fun children => ?_
  have renewed : Concludes (renew (fun _ _ => pure ()) current children : Run ν σ ν) := by
    refine (Tree.rebuild_concludes current children).bind fun rebuilt => ?_
    split
    · exact .pure rebuilt
    · exact (Concludes.modify _).bind fun _ => (Concludes.pure ()).bind fun _ => .pure rebuilt
  refine renewed.bind fun rebuilt => ?_
  refine (fixpoint_concludes lowers _ rebuilt).bind fun outcome => ?_
  cases outcome.reExploredBy with
  | none => exact .pure _
  | some rule => exact goes _

theorem exploreRounds_concludes (limits : Limits) {visit : ν → ν → Run ν σ ν}
    (visits : ∀ root node, Concludes (visit root node)) (root : ν) (outermost : Bool) (remaining : Nat)
    (current : ν) :
    Concludes (exploreRounds ⟨environment, rules, measure⟩ limits visit root outermost remaining current) := by
  induction remaining generalizing current with
  | zero => exact exploreRound_concludes lowers visits root outermost (fun _ => .raise _) current
  | succ remaining ih => exact exploreRound_concludes lowers visits root outermost ih current

theorem explore_concludes (limits : Limits) (depth : Nat) (root current : ν) :
    Concludes (explore (σ := σ) ⟨environment, rules, measure⟩ limits depth root current) := by
  induction depth generalizing root current with
  | zero => exact .raise _
  | succ depth ih => exact exploreRounds_concludes lowers limits ih root _ _ current

theorem optimize_concludes (limits : Limits) (root : ν) :
    Concludes (optimize (σ := σ) ⟨environment, rules, measure⟩ limits root) := by
  refine (onFreshLedger_concludes (explore_concludes lowers limits _ root root)).bind fun found => ?_
  dsimp only
  split
  · exact .pure _
  · exact .pure _

end Rules

section Computation
variable {A ρ : Type} {environment : Environment} {measure : ν → Nat}

/-- Keeping what a rule attaches to its nodes has no influence on them. -/
theorem ComputationRule.recording_lowers {rule : ComputationRule ν ω σ A ρ}
    (lowers : Lowers ComputationCall.toCall Prod.fst measure environment rule) (argument : A) :
    Lowers id id measure environment (ComputationRule.recording argument rule) := by
  intro call session same matched
  let computing : ComputationCall ν A ρ := { call with argument, computed := session.client.2 }
  refine recorded_ends argument ((lowers computing (session.view Prod.fst) same matched).imp ?_)
  intro response _ lower node member
  obtain ⟨result, yielded, rfl⟩ := List.mem_map.mp member
  exact lower result yielded

variable {rules : RuleSet ν ω (ComputationCall ν A ρ → RuleM σ (Response (ν × ρ)))}
variable (lowers : ∀ rule ∈ rules.rules, Lowers ComputationCall.toCall Prod.fst measure environment rule)
include lowers

theorem recording_rules_lower (argument : A) :
    ∀ rule ∈ (rules.map (ComputationRule.recording argument)).rules, Lowers id id measure environment rule := by
  intro rule member
  obtain ⟨computing, computes, rfl⟩ := List.mem_map.mp member
  exact ComputationRule.recording_lowers (lowers computing computes) argument

theorem compute_concludes (argument : A) (root : ν) :
    Concludes (compute ⟨environment, rules, measure⟩ argument root) := by
  intro session
  have simplifies := simplify_concludes (recording_rules_lower lowers argument) root
    ⟨session.supply, session.client, .empty⟩
  unfold Ends compute at *
  split at simplifies
  · rename_i found
    simp only [found]
  · rename_i found
    simpa only [found] using simplifies

theorem compute_patient {patience : ν → Nat} (patient : ∀ node, measure node ≤ patience node) (argument : A) :
    compute ⟨environment, rules, patience⟩ argument = compute ⟨environment, rules, measure⟩ argument := by
  have driven := fixpoint_patient (recording_rules_lower lowers argument) patient
  funext root session
  simp only [compute, simplify_of_fixpoint driven]

end Computation
end QueryOptimizer
