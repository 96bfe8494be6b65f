import QueryOptimizer.Proofs.Simplification.Results
import QueryOptimizer.Proofs.Simplification.Watching

/-!
Drivers that know where they are. The setting may depend on the position that is being rewritten, given by the nodes
above it, so that rules can take down where they are called, and how. If it does not depend on that, these are the
drivers themselves.
-/
namespace QueryOptimizer
variable {ν ω σ τ α β γ : Type}

/-- Where a rule was called, and how. The nodes above the position come innermost first. -/
structure Sighting (ν : Type) where
  above : List ν
  call : Call ν

def Session.withSightings (session : Session σ) (sightings : List (Sighting ν)) : Session (σ × List (Sighting ν)) :=
  ⟨session.supply, session.client, sightings⟩

/-- What was sighted until a run ended. -/
def sightingsOf : EStateM.Result Interruption (Session (σ × List (Sighting ν))) α → List (Sighting ν)
  | .ok _ after | .error _ after => after.client.2

theorem sightingsOf_endSeen (sightings : List (Sighting ν)) (result : EStateM.Result Interruption (Session σ) α) :
    sightingsOf (endSeen (fun after => after.withSightings sightings) result) = sightings := by
  cases result <;> rfl

/-- The action of a rule at a position, for a client that also keeps what is sighted. A call is sighted whatever
comes of it. What a rule is called with may be more than a call. -/
def sighting (callOf : γ → Call ν) (above : List ν) (action : γ → RuleM σ (Response β)) (call : γ) :
    RuleM (σ × List (Sighting ν)) (Response β) := fun session =>
  let sightings := session.client.2 ++ [⟨above, callOf call⟩]
  match action call (session.view Prod.fst) with
  | .ok response after => .ok response (after.withSightings sightings)
  | .error interruption after => .error interruption (after.withSightings sightings)

section Drivers
variable [Tree ν ω] [DecidableEq ω] (settingAt : List ν → Setting ν ω (Call ν → RuleM σ (Response ν)))

/-- Simplifies what is below a node, and then the node. -/
def simplifyBelow (root : ν) (above : List ν) (node : ν) : Run ν σ ν := do
  let mapped ← (Tree.children node).attach.mapM fun child => simplifyBelow root (node :: above) child.1
  simplifyNode (settingAt above) root node mapped
termination_by Tree.nodeCount node
decreasing_by exact Tree.nodeCount_lt child.2

def simplifyAt (root : ν) : RuleM σ (Constrained ν) := do
  let (simplified, constraints) ← (simplifyBelow settingAt root [] root).onFreshLedger
  return ⟨simplified, collectConstraints constraints simplified⟩

/-- Explores a node in rounds. Above its children there is the node as it is at the start of the round. -/
def exploreRoundsAt (limits : Limits) (visit : List ν → ν → ν → Run ν σ ν) (above : List ν) (root : ν)
    (outermost : Bool) : (remaining : Nat) → ν → Run ν σ ν
  | 0, current => exploreRound (settingAt above) (visit (current :: above)) root outermost
      (fun _ => raise (.reExplorationLimit limits.reExplorations)) current
  | remaining + 1, current => exploreRound (settingAt above) (visit (current :: above)) root outermost
      (exploreRoundsAt limits visit above root outermost remaining) current

def exploreAt (limits : Limits) : Nat → List ν → ν → ν → Run ν σ ν
  | 0, _, _, _ => raise (.recursionLimit limits.recursion)
  | depth + 1, above, root, current =>
    exploreRoundsAt settingAt limits (exploreAt limits depth) above root (sameNode root current)
      limits.reExplorations current

def optimizeAt (limits : Limits) (root : ν) : RuleM σ (Constrained ν) := do
  let (optimized, constraints) ← (exploreAt settingAt limits limits.recursion [] root root).onFreshLedger
  if sameNode optimized root then return ⟨optimized, .none⟩
  else return ⟨optimized, collectConstraints constraints optimized⟩

theorem simplifyBelow_eq (root : ν) (above : List ν) (node : ν) :
    simplifyBelow settingAt root above node =
      (Tree.children node).mapM (simplifyBelow settingAt root (node :: above)) >>=
        simplifyNode (settingAt above) root node := by
  rw [simplifyBelow]
  congr 1
  exact List.mapM_subtype (fun _ _ => rfl) |>.trans (by simp)

end Drivers

/-- Computes with rules that depend on the position. -/
def computeAt {A ρ : Type} [Tree ν ω] [DecidableEq ω]
    (settingAt : List ν → Setting ν ω (ComputationCall ν A ρ → RuleM σ (Response (ν × ρ)))) (argument : A)
    (root : ν) : RuleM σ (Option (Constrained ν × ρ)) := fun session =>
  let recordingAt (above : List ν) : Setting ν ω (Call ν → RuleM (ComputationState ν σ ρ) (Response ν)) :=
    { settingAt above with rules := (settingAt above).rules.map (ComputationRule.recording argument) }
  match simplifyAt recordingAt root ⟨session.supply, session.client, .empty⟩ with
  | .ok simplified ⟨supply, client, computed⟩ =>
    .ok ((computed.get? simplified.value).map (simplified, ·)) ⟨supply, client⟩
  | .error interruption ⟨supply, client, _⟩ => .error interruption ⟨supply, client⟩

section Everywhere
variable [Tree ν ω] [DecidableEq ω] (setting : Setting ν ω (Call ν → RuleM σ (Response ν)))

theorem simplifyBelow_everywhere (root : ν) (above : List ν) (node : ν) :
    simplifyBelow (fun _ => setting) root above node = Tree.fold (simplifyNode setting root) node := by
  induction node using Tree.childInduction generalizing above with
  | step node ih =>
    have below := map_mapM id (Tree.children node) fun child member =>
      (id_map _).trans (ih child member (node :: above))
    rw [List.map_id_fun, id_map] at below
    rw [simplifyBelow_eq, Tree.fold_eq, below]

theorem simplifyAt_everywhere (root : ν) : simplifyAt (fun _ => setting) root = simplify setting root := by
  unfold simplifyAt simplify
  rw [simplifyBelow_everywhere, Tree.mapPostOrder_eq_fold]

theorem exploreAt_everywhere (limits : Limits) (depth : Nat) (above : List ν) :
    exploreAt (fun _ => setting) limits depth above = explore setting limits depth := by
  induction depth generalizing above with
  | zero => rfl
  | succ depth ih =>
    have rounds (root : ν) (outermost : Bool) (remaining : Nat) :
        exploreRoundsAt (fun _ => setting) limits (exploreAt (fun _ => setting) limits depth) above root outermost
          remaining = exploreRounds setting limits (explore setting limits depth) root outermost remaining := by
      induction remaining with
      | zero =>
        funext current
        simp only [exploreRoundsAt, exploreRounds, ih]
      | succ remaining others =>
        funext current
        simp only [exploreRoundsAt, exploreRounds, ih, others]
    funext root current
    simp only [exploreAt, explore, rounds]

theorem optimizeAt_everywhere (limits : Limits) (root : ν) :
    optimizeAt (fun _ => setting) limits root = optimize setting limits root := by
  unfold optimizeAt optimize
  rw [exploreAt_everywhere]

theorem computeAt_everywhere {A ρ : Type}
    (setting : Setting ν ω (ComputationCall ν A ρ → RuleM σ (Response (ν × ρ)))) (argument : A) (root : ν) :
    computeAt (fun _ => setting) argument root = compute setting argument root := by
  funext session
  cases ran : simplify { setting with rules := setting.rules.map (ComputationRule.recording argument) } root
    ⟨session.supply, session.client, .empty⟩ with
  | ok simplified after => simp only [computeAt, compute, simplifyAt_everywhere, ran]
  | error interruption after => simp only [computeAt, compute, simplifyAt_everywhere, ran]

end Everywhere

theorem sighting_projects (callOf : γ → Call ν) (above : List ν) (action : γ → RuleM σ (Response β)) (call : γ) :
    Projects (Session.view Prod.fst) (sighting callOf above action call) (action call) := by
  intro session
  unfold Ends sighting
  cases found : action call (session.view Prod.fst) with
  | ok response after => rfl
  | error interruption after => rfl

/-- A run that is sighted goes as it does otherwise, and what holds of all that is sighted in the end can be told of
what is kept besides. -/
theorem Projects.sighted {computation : RuleM (σ × List (Sighting ν)) α} {image : RuleM σ α}
    (projects : Projects (Session.view Prod.fst) computation image) {session : Session σ}
    {holds : Sighting ν → Prop}
    (ends : EndsIn computation (session.withSightings []) fun after => ∀ sighting ∈ after.client.2, holds sighting) :
    ∃ sightings,
      computation (session.withSightings []) =
        endSeen (fun after => after.withSightings sightings) (image session) ∧
      ∀ sighting ∈ sightings, holds sighting := by
  have seen : image session = endSeen (Session.view Prod.fst) (computation (session.withSightings [])) :=
    projects.endSeen_eq (session.withSightings [])
  refine ⟨sightingsOf (computation (session.withSightings [])), ?_⟩
  unfold EndsIn Ends at ends
  rw [seen]
  cases found : computation (session.withSightings []) with
  | ok result after => exact ⟨rfl, by simpa only [found, sightingsOf] using ends⟩
  | error interruption after => exact ⟨rfl, by simpa only [found, sightingsOf] using ends⟩

section Projection
variable [Tree ν ω] [DecidableEq ω] {setting : Setting ν ω α} {view : τ → σ}

section Drivers
variable {lift : List ν → α → Call ν → RuleM τ (Response ν)} {image : α → Call ν → RuleM σ (Response ν)}
variable (lifts : ∀ above, ∀ rule ∈ setting.rules.rules, ∀ call,
  Projects (Session.view view) (lift above rule.action call) (image rule.action call))
include lifts

theorem simplifyBelow_projects (root : ν) (above : List ν) (node : ν) :
    Projects (Ledger.view view) (simplifyBelow (fun above => setting.lift (lift above)) root above node)
      (Tree.fold (simplifyNode (setting.lift image) root) node) := by
  induction node using Tree.childInduction generalizing above with
  | step node ih =>
    rw [simplifyBelow_eq, Tree.fold_eq]
    exact (Projects.mapM (Tree.children node) fun child member => ih child member (node :: above)).bind fun mapped =>
      simplifyNode_projects (lifts above) root node mapped

theorem simplifyAt_projects (root : ν) :
    Projects (Session.view view) (simplifyAt (fun above => setting.lift (lift above)) root)
      (simplify (setting.lift image) root) := by
  unfold simplifyAt simplify
  rw [Tree.mapPostOrder_eq_fold]
  exact (onFreshLedger_projects (simplifyBelow_projects lifts root [] root)).bind fun _ => .pure _

theorem exploreRoundAt_projects {visit : ν → ν → Run ν τ ν} {visitImage : ν → ν → Run ν σ ν}
    (visits : ∀ root node, Projects (Ledger.view view) (visit root node) (visitImage root node)) (above : List ν)
    (root : ν) (outermost : Bool) {again : ν → Run ν τ ν} {againImage : ν → Run ν σ ν}
    (rest : ∀ node, Projects (Ledger.view view) (again node) (againImage node)) (current : ν) :
    Projects (Ledger.view view) (exploreRound (setting.lift (lift above)) visit root outermost again current)
      (exploreRound (setting.lift image) visitImage root outermost againImage current) := by
  rw [← exploreRoundNoting_silent, ← exploreRoundNoting_silent]
  exact exploreRoundNoting_projects (lifts above) (fun _ _ => .pure ()) visits root outermost rest current

theorem exploreAt_projects (limits : Limits) (depth : Nat) (above : List ν) (root current : ν) :
    Projects (Ledger.view view)
      (exploreAt (fun above => setting.lift (lift above)) limits depth above root current)
      (explore (setting.lift image) limits depth root current) := by
  induction depth generalizing above root current with
  | zero => exact .raise _
  | succ depth ih =>
    have rounds (outermost : Bool) (remaining : Nat) : Projects (Ledger.view view)
        (exploreRoundsAt (fun above => setting.lift (lift above)) limits
          (exploreAt (fun above => setting.lift (lift above)) limits depth) above root outermost remaining current)
        (exploreRounds (setting.lift image) limits (explore (setting.lift image) limits depth) root outermost
          remaining current) := by
      induction remaining generalizing current with
      | zero => exact exploreRoundAt_projects lifts (ih (current :: above)) above root outermost (fun _ => .raise _) _
      | succ remaining others =>
        exact exploreRoundAt_projects lifts (ih (current :: above)) above root outermost others current
    exact rounds _ _

theorem optimizeAt_projects (limits : Limits) (root : ν) :
    Projects (Session.view view) (optimizeAt (fun above => setting.lift (lift above)) limits root)
      (optimize (setting.lift image) limits root) := by
  refine (onFreshLedger_projects (exploreAt_projects lifts limits _ [] root root)).bind fun found => ?_
  dsimp only
  split
  · exact .pure _
  · exact .pure _

end Drivers

section Computation
variable {A ρ : Type} (argument : A)

omit [DecidableEq ω] in
theorem recorded_projects {action : ComputationCall ν A ρ → RuleM τ (Response (ν × ρ))}
    {image : ComputationCall ν A ρ → RuleM σ (Response (ν × ρ))}
    (projects : ∀ call, Projects (Session.view view) (action call) (image call)) (call : Call ν) :
    Projects (Session.view fun client => (view client.1, client.2)) (recorded argument action call)
      (recorded argument image call) := by
  intro session
  let seen := session.view fun client => (view client.1, client.2)
  refine recorded_ends argument ((projects _ (session.view Prod.fst)).mono ?_ ?_)
  · intro response after found
    have called : image { call with argument, computed := seen.client.2 } (seen.view Prod.fst) =
        .ok response (after.view view) := found
    rw [recorded_eq, called]
    rfl
  · intro interruption after found
    have called : image { call with argument, computed := seen.client.2 } (seen.view Prod.fst) =
        .error interruption (after.view view) := found
    rw [recorded_eq, called]
    rfl

omit [DecidableEq ω] in
/-- With its rules recording what they compute, a setting has their recorded actions. -/
theorem Setting.lift_recording (lift : α → ComputationCall ν A ρ → RuleM σ (Response (ν × ρ))) :
    ({ setting.lift lift with rules := (setting.lift lift).rules.map (ComputationRule.recording argument) } :
      Setting ν ω (Call ν → RuleM (ComputationState ν σ ρ) (Response ν))) =
      setting.lift fun action => recorded argument (lift action) := by
  simp only [Setting.lift, RuleSet.map, List.map_map]
  rfl

theorem computeAt_projects {lift : List ν → α → ComputationCall ν A ρ → RuleM τ (Response (ν × ρ))}
    {image : α → ComputationCall ν A ρ → RuleM σ (Response (ν × ρ))}
    (lifts : ∀ above, ∀ rule ∈ setting.rules.rules, ∀ call,
      Projects (Session.view view) (lift above rule.action call) (image rule.action call)) (root : ν) :
    Projects (Session.view view) (computeAt (fun above => setting.lift (lift above)) argument root)
      (compute (setting.lift image) argument root) := by
  intro session
  have simplified : Projects (Session.view fun client => (view client.1, client.2))
      (simplifyAt (fun above => setting.lift fun action => recorded argument (lift above action)) root)
      (simplify (setting.lift fun action => recorded argument (image action)) root) := by
    refine simplifyAt_projects ?_ root
    exact fun above rule member => recorded_projects argument (lifts above rule member)
  have known := simplified ⟨session.supply, session.client, .empty⟩
  unfold Ends at known ⊢
  simp only [computeAt, compute, Setting.lift_recording]
  split at known
  · rename_i result after found
    have ran : simplify (setting.lift fun action => recorded argument (image action)) root
        ⟨session.supply, view session.client, .empty⟩ =
          .ok result ⟨after.supply, view after.client.1, after.client.2⟩ := known
    simp only [found, Session.view, ran]
  · rename_i interruption after found
    have ran : simplify (setting.lift fun action => recorded argument (image action)) root
        ⟨session.supply, view session.client, .empty⟩ =
          .error interruption ⟨after.supply, view after.client.1, after.client.2⟩ := known
    simp only [found, Session.view, ran]

end Computation
end Projection
end QueryOptimizer
