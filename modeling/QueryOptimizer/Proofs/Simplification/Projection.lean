import QueryOptimizer.Proofs.Simplification.Call
import QueryOptimizer.Proofs.Simplification.Noting
import QueryOptimizer.Proofs.Tree.Descent
import QueryOptimizer.Simplification.BottomUp

/-!
Runs in which the client keeps more. If the actions that rules are lifted to do what those do that they are
lifted to otherwise, seen through a view of what the client keeps, then so do the drivers that call them,
whether they return or stop short.
-/
namespace QueryOptimizer

/-- Seen through `view`, the first computation does what the second one does. -/
def Projects {ε S T α : Type} (view : S → T) (computation : EStateM ε S α) (image : EStateM ε T α) : Prop :=
  ∀ state, Ends computation state
    (fun result after => image (view state) = .ok result (view after))
    (fun interruption after => image (view state) = .error interruption (view after))

namespace Projects
variable {ε S T α β : Type} {view : S → T} {computation : EStateM ε S α} {image : EStateM ε T α}

theorem pure (result : α) : Projects view (Pure.pure result : EStateM ε S α) (Pure.pure result) :=
  fun _ => rfl

theorem throw (error : ε) : Projects view (throw error : EStateM ε S α) (MonadExcept.throw error) :=
  fun _ => rfl

theorem raise (error : Error) :
    Projects view (QueryOptimizer.raise error : EStateM Interruption S α) (QueryOptimizer.raise error) :=
  fun _ => rfl

theorem bind {next : α → EStateM ε S β} {nextImage : α → EStateM ε T β}
    (first : Projects view computation image) (rest : ∀ result, Projects view (next result) (nextImage result)) :
    Projects view (computation >>= next) (image >>= nextImage) := by
  intro state
  have continued (result : α) (after : S) (found : image (view state) = .ok result (view after)) :
      (image >>= nextImage) (view state) = nextImage result (view after) := by
    show EStateM.bind image nextImage (view state) = _
    simp only [EStateM.bind, found]
  refine .bind ((first state).mono ?_ ?_)
  · intro result after found
    rw [continued result after found]
    exact rest result after
  · intro interruption after found
    show EStateM.bind image nextImage (view state) = _
    simp only [EStateM.bind, found]

theorem mapM {γ : Type} {step : γ → EStateM ε S β} {stepImage : γ → EStateM ε T β} (elements : List γ)
    (steps : ∀ element ∈ elements, Projects view (step element) (stepImage element)) :
    Projects view (elements.mapM step) (elements.mapM stepImage) := by
  induction elements with
  | nil => exact .pure []
  | cons element rest ih =>
    rw [List.mapM_cons, List.mapM_cons]
    refine (steps element (by simp)).bind fun result => ?_
    exact (ih fun other member => steps other (by simp [member])).bind fun results => .pure (result :: results)

/-- What the image returns, the computation returns as well. -/
theorem returned (projects : Projects view computation image) {state : S} {result : α} {after : T}
    (found : image (view state) = .ok result after) :
    ∃ final, computation state = .ok result final ∧ view final = after := by
  have known := projects state
  unfold Ends at known
  split at known
  · rename_i ran
    rw [found] at known
    cases known
    exact ⟨_, ran, rfl⟩
  · rw [found] at known
    cases known

end Projects

variable {ν ω σ τ : Type}

/-- The session as it is seen if what the client keeps is. -/
def Session.view (view : τ → σ) (session : Session τ) : Session σ :=
  ⟨session.supply, view session.client⟩

def Ledger.view (view : τ → σ) (ledger : Ledger ν τ) : Ledger ν σ :=
  ⟨ledger.toSession.view view, ledger.constraints⟩

/-- The setting with what `lift` makes of the actions of its rules. -/
def Setting.lift (lift : α → β) (setting : Setting ν ω α) : Setting ν ω β :=
  { setting with rules := setting.rules.map (Rule.map lift) }

theorem Setting.lift_id (setting : Setting ν ω α) : setting.lift id = setting := by
  simp only [lift, RuleSet.map, show Rule.map (ν := ν) (ω := ω) (id : α → α) = id from rfl, List.map_id]

variable [Tree ν ω] {view : τ → σ}

theorem Tree.rebuild_projects (node : ν) (mapped : List ν) :
    Projects (Ledger.view view) (Tree.rebuild node mapped : Run ν τ ν) (Tree.rebuild node mapped) := by
  unfold Tree.rebuild
  split
  · exact .raise _
  · split
    · exact .pure node
    · exact fun _ => rfl

theorem Tree.fold_projects {ε S T ρ : Type} {view : T → S} {f : ν → List ρ → EStateM ε T ρ}
    {image : ν → List ρ → EStateM ε S ρ} (steps : ∀ node results, Projects view (f node results) (image node results))
    (root : ν) : Projects view (Tree.fold f root) (Tree.fold image root) := by
  induction root using childInduction with
  | step node ih =>
    rw [fold_eq, fold_eq]
    exact (Projects.mapM (children node) ih).bind fun results => steps node results

theorem Tree.mapPostOrder_projects {ρ : Type} {f : ν → List ρ → Run ν τ ρ} {image : ν → List ρ → Run ν σ ρ}
    (steps : ∀ node results, Projects (Ledger.view view) (f node results) (image node results)) (root : ν) :
    Projects (Ledger.view view) (Tree.mapPostOrder f root) (Tree.mapPostOrder image root) := by
  rw [mapPostOrder_eq_fold, mapPostOrder_eq_fold]
  exact Tree.fold_projects steps root

theorem onFreshLedger_projects {run : Run ν τ α} {image : Run ν σ α}
    (projects : Projects (Ledger.view view) run image) :
    Projects (Session.view view) run.onFreshLedger image.onFreshLedger := by
  intro session
  refine onFreshLedger_ends ((projects { toSession := session }).mono ?_ ?_)
  · intro result after found
    have same : image { toSession := session.view view } = .ok result (after.view view) := found
    simp only [Run.onFreshLedger, same]
    rfl
  · intro interruption after found
    have same : image { toSession := session.view view } = .error interruption (after.view view) := found
    simp only [Run.onFreshLedger, same]
    rfl

theorem ofRule_projects {computation : RuleM τ α} {image : RuleM σ α}
    (projects : Projects (Session.view view) computation image) :
    Projects (Ledger.view view) (Run.ofRule computation : Run ν τ α) (Run.ofRule image) := by
  intro ledger
  have known := projects ledger.toSession
  unfold Ends at known
  unfold Ends Run.ofRule
  split at known
  · rename_i found
    have same : image (ledger.view view).toSession = _ := known
    simp only [found, same]
    rfl
  · rename_i found
    have same : image (ledger.view view).toSession = _ := known
    simp only [found, same]
    rfl

/-- What the driver does about the answer of a rule. -/
def takeAnswer (rule : String) (current : ν) (response : Response ν) : Run ν σ (Option (Yielded ν)) :=
  match response.results with
  | [] => return none
  | [node] => do
    modify fun ledger => { ledger with
      constraints := attachConstraint ledger.constraints current node response.constraint }
    return some ⟨node, response.reExplore⟩
  | results => raise (.ambiguousYield rule results.length)

theorem callRule_eq (environment : Environment) (rule : SimplificationRule ν ω σ) (root current : ν)
    (bindings : Bindings ν) (ledger : Ledger ν σ) :
    callRule environment rule root current bindings ledger =
      (Run.ofRule (rule.action (ledger.call environment rule root current bindings)) >>=
        takeAnswer rule.name current) ledger :=
  rfl

theorem takeAnswer_projects (rule : String) (current : ν) (response : Response ν) :
    Projects (Ledger.view view) (takeAnswer rule current response) (takeAnswer rule current response) := by
  unfold takeAnswer
  split
  · exact .pure none
  · exact fun _ => rfl
  · exact .raise _

theorem callRule_projects (environment : Environment) {rule : Rule ν ω α}
    {lift : α → Call ν → RuleM τ (Response ν)} {image : α → Call ν → RuleM σ (Response ν)}
    (lifts : ∀ call, Projects (Session.view view) (lift rule.action call) (image rule.action call))
    (root current : ν) (bindings : Bindings ν) :
    Projects (Ledger.view view) (callRule environment (rule.map lift) root current bindings)
      (callRule environment (rule.map image) root current bindings) := by
  intro ledger
  unfold Ends
  rw [callRule_eq, callRule_eq]
  exact ((ofRule_projects (lifts _)).bind fun response => takeAnswer_projects rule.name current response) ledger

variable [DecidableEq ω]

theorem applications_lift (lift : α → β) (rules : RuleSet ν ω α) (node : ν) :
    applications (rules.map (Rule.map lift)) node =
      (applications rules node).map fun application => (application.1.map lift, application.2) := by
  simp only [applications, RuleSet.candidates, RuleSet.map, List.filter_map, List.flatMap_map, List.map_flatMap,
    List.map_map]
  rfl

section Drivers
variable {setting : Setting ν ω α} {lift : α → Call ν → RuleM τ (Response ν)}
variable {image : α → Call ν → RuleM σ (Response ν)}
variable (lifts : ∀ rule ∈ setting.rules.rules, ∀ call,
  Projects (Session.view view) (lift rule.action call) (image rule.action call))
include lifts

omit [DecidableEq ω] in
theorem firstReplacement_projects (root current : ν) {tried : List (Rule ν ω α × Bindings ν)}
    (members : ∀ application ∈ tried, application.1 ∈ setting.rules.rules) :
    Projects (Ledger.view view)
      (firstReplacement setting.environment root current
        (tried.map fun application => (application.1.map lift, application.2)))
      (firstReplacement setting.environment root current
        (tried.map fun application => (application.1.map image, application.2))) := by
  induction tried with
  | nil => exact .pure none
  | cons application rest ih =>
    have others := ih fun other member => members other (by simp [member])
    refine (callRule_projects setting.environment (lifts application.1 (members application (by simp))) root current
      application.2).bind fun yielded? => ?_
    cases yielded? with
    | none => exact others
    | some yielded =>
      dsimp only
      split
      · exact others
      · exact .pure _

theorem replaceThen_projects (root : ν) (outermost : Bool) {next : ν → Run ν τ (Outcome ν)}
    {nextImage : ν → Run ν σ (Outcome ν)} (rest : ∀ node, Projects (Ledger.view view) (next node) (nextImage node))
    (current : ν) :
    Projects (Ledger.view view)
      (replaceThen setting.environment (setting.lift lift).rules root outermost next current)
      (replaceThen setting.environment (setting.lift image).rules root outermost nextImage current) := by
  unfold replaceThen
  rw [show (setting.lift lift).rules = setting.rules.map (Rule.map lift) from rfl,
    show (setting.lift image).rules = setting.rules.map (Rule.map image) from rfl, applications_lift,
    applications_lift]
  refine (firstReplacement_projects lifts _ current fun _ member => (mem_applications.mp member).1.1).bind
    fun replacement? => ?_
  cases replacement? with
  | none => exact .pure _
  | some replacement =>
    dsimp only
    split
    · exact .pure _
    · exact rest _

theorem replaceRepeatedly_projects (root : ν) (outermost : Bool) (steps : Nat) (current : ν) :
    Projects (Ledger.view view)
      (replaceRepeatedly setting.environment (setting.lift lift).rules root outermost steps current)
      (replaceRepeatedly setting.environment (setting.lift image).rules root outermost steps current) := by
  induction steps generalizing current with
  | zero => exact replaceThen_projects lifts root outermost (fun _ => .throw _) current
  | succ steps ih => exact replaceThen_projects lifts root outermost ih current

theorem fixpoint_projects (root current : ν) :
    Projects (Ledger.view view) (fixpoint (setting.lift lift) root current)
      (fixpoint (setting.lift image) root current) :=
  replaceRepeatedly_projects lifts root _ _ current

theorem simplifyNode_projects (root node : ν) (mapped : List ν) :
    Projects (Ledger.view view) (simplifyNode (setting.lift lift) root node mapped)
      (simplifyNode (setting.lift image) root node mapped) := by
  refine (Tree.rebuild_projects node mapped).bind fun current => ?_
  refine (fixpoint_projects lifts _ current).bind fun outcome => ?_
  cases outcome.reExploredBy with
  | none => exact .pure _
  | some rule => exact .raise _

/-- Simplification does what it does if the client keeps more. -/
theorem simplify_projects (root : ν) :
    Projects (Session.view view) (simplify (setting.lift lift) root) (simplify (setting.lift image) root) :=
  (onFreshLedger_projects (Tree.mapPostOrder_projects (simplifyNode_projects lifts root) root)).bind
    fun _ => .pure _

section Exploration
variable {note : ν → ν → Run ν τ Unit} {noteImage : ν → ν → Run ν σ Unit}
variable (notes : ∀ current rebuilt, Projects (Ledger.view view) (note current rebuilt) (noteImage current rebuilt))
include notes

omit [DecidableEq ω] lifts in
theorem renew_projects (current : ν) (children : List ν) :
    Projects (Ledger.view view) (renew note current children) (renew noteImage current children) := by
  refine (Tree.rebuild_projects current children).bind fun rebuilt => ?_
  split
  · exact .pure rebuilt
  · refine Projects.bind (fun _ => rfl) fun _ => ?_
    exact (notes current rebuilt).bind fun _ => .pure rebuilt

theorem exploreRoundNoting_projects {visit : ν → ν → Run ν τ ν} {visitImage : ν → ν → Run ν σ ν}
    (visits : ∀ root node, Projects (Ledger.view view) (visit root node) (visitImage root node)) (root : ν)
    (outermost : Bool) {again : ν → Run ν τ ν} {againImage : ν → Run ν σ ν}
    (rest : ∀ node, Projects (Ledger.view view) (again node) (againImage node)) (current : ν) :
    Projects (Ledger.view view)
      (exploreRoundNoting (setting.lift lift) note visit root outermost again current)
      (exploreRoundNoting (setting.lift image) noteImage visitImage root outermost againImage current) := by
  refine (Projects.mapM (Tree.children current) fun child _ => visits _ child).bind fun children => ?_
  refine (renew_projects notes current children).bind fun rebuilt => ?_
  refine (fixpoint_projects lifts _ rebuilt).bind fun outcome => ?_
  cases outcome.reExploredBy with
  | none => exact .pure _
  | some rule => exact rest _

theorem exploreRoundsNoting_projects (limits : Limits) {visit : ν → ν → Run ν τ ν} {visitImage : ν → ν → Run ν σ ν}
    (visits : ∀ root node, Projects (Ledger.view view) (visit root node) (visitImage root node)) (root : ν)
    (outermost : Bool) (remaining : Nat) (current : ν) :
    Projects (Ledger.view view)
      (exploreRoundsNoting (setting.lift lift) note limits visit root outermost remaining current)
      (exploreRoundsNoting (setting.lift image) noteImage limits visitImage root outermost remaining current) := by
  induction remaining generalizing current with
  | zero => exact exploreRoundNoting_projects lifts notes visits root outermost (fun _ => .raise _) current
  | succ remaining ih => exact exploreRoundNoting_projects lifts notes visits root outermost ih current

theorem exploreNoting_projects (limits : Limits) (depth : Nat) (root current : ν) :
    Projects (Ledger.view view) (exploreNoting (setting.lift lift) note limits depth root current)
      (exploreNoting (setting.lift image) noteImage limits depth root current) := by
  induction depth generalizing root current with
  | zero => exact .raise _
  | succ depth ih => exact exploreRoundsNoting_projects lifts notes limits ih root _ _ current

/-- Optimization does what it does if the client keeps more. -/
theorem optimizeNoting_projects (limits : Limits) (root : ν) :
    Projects (Session.view view) (optimizeNoting (setting.lift lift) note limits root)
      (optimizeNoting (setting.lift image) noteImage limits root) := by
  refine (onFreshLedger_projects (exploreNoting_projects lifts notes limits _ root root)).bind fun found => ?_
  dsimp only
  split
  · exact .pure _
  · exact .pure _

end Exploration
end Drivers
end QueryOptimizer
