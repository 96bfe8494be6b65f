import QueryOptimizer.Proofs.Simplification.Projection
import QueryOptimizer.RecursionGuard

/-!
Exploration as loops that know no other bounds than the checks they make: a recursion guard in the state is asked
before each visit of a node, and a counter is compared after each round that asks for another one. A clock only
makes them total. The rounds that are started are kept beside what the client keeps.
-/
namespace QueryOptimizer

/-- One round was started at this depth; the rounds of each visit of a node are counted from one on. -/
structure Start where
  depth : Nat
  round : Nat
  deriving DecidableEq, Repr

/-- The limits allow for the round. -/
def Limits.Admit (limits : Limits) (start : Start) : Prop :=
  start.depth ≤ limits.recursion ∧ start.round ≤ limits.reExplorations + 1

/-- The guard of the traversal, and the rounds that were started, oldest first. -/
structure Watch where
  guard : RecursionGuard
  starts : List Start := []

/-- What a computation comes to, with a view of the state that it leaves behind. -/
def endSeen {ε S T α : Type} (view : S → T) : EStateM.Result ε S α → EStateM.Result ε T α
  | .ok result after => .ok result (view after)
  | .error interruption after => .error interruption (view after)

theorem Projects.endSeen_eq {ε S T α : Type} {view : S → T} {computation : EStateM ε S α} {image : EStateM ε T α}
    (projects : Projects view computation image) (state : S) :
    image (view state) = endSeen view (computation state) := by
  have ended := projects state
  unfold Ends at ended
  cases found : computation state with
  | ok result after => simpa only [found, endSeen] using ended
  | error interruption after => simpa only [found, endSeen] using ended

variable {ν ω σ α β : Type}

instance : Guarded (Ledger ν (σ × Watch)) where
  guardOf ledger := ledger.client.2.guard
  withGuard ledger guard := { ledger with client := (ledger.client.1, { ledger.client.2 with guard }) }

def Session.watched (session : Session σ) (watch : Watch) : Session (σ × Watch) :=
  session.view fun client => (client, watch)

def Ledger.watched (ledger : Ledger ν σ) (watch : Watch) : Ledger ν (σ × Watch) :=
  ledger.view fun client => (client, watch)

theorem guardOf_watched (ledger : Ledger ν σ) (watch : Watch) :
    Guarded.guardOf (ledger.watched watch) = watch.guard :=
  rfl

theorem withGuard_watched (ledger : Ledger ν σ) (watch : Watch) (guard : RecursionGuard) :
    Guarded.withGuard (ledger.watched watch) guard = ledger.watched { watch with guard } :=
  rfl

/-- The action of a rule that is watched, of which it does not know. -/
def unaware (action : Call ν → RuleM σ (Response ν)) (call : Call ν) : RuleM (σ × Watch) (Response ν) :=
  fun session =>
    match action call (session.view Prod.fst) with
    | .ok response after => .ok response (after.watched session.client.2)
    | .error interruption after => .error interruption (after.watched session.client.2)

theorem unaware_projects (watch : Watch) (action : Call ν → RuleM σ (Response ν)) (call : Call ν) :
    Projects (Session.view fun client => (client, watch)) (action call) (unaware action call) := by
  intro session
  have seen : (session.watched watch).view Prod.fst = session := rfl
  unfold Ends
  cases found : action call session with
  | ok response after =>
    show unaware action call (session.watched watch) = _
    rw [unaware, seen, found]
    rfl
  | error interruption after =>
    show unaware action call (session.watched watch) = _
    rw [unaware, seen, found]
    rfl

/-- Takes down that the round of the given number is started. -/
def noteStart (round : Nat) : Run ν (σ × Watch) Unit :=
  modify fun ledger =>
    let watch := ledger.client.2
    { ledger with client := (ledger.client.1, { watch with starts := watch.starts ++ [⟨watch.guard.depth, round⟩] }) }

/-- Under this guard the second computation ends as the first one does, with the guard as it was and starting no
rounds but admitted ones. -/
def Watches (limits : Limits) (guard : RecursionGuard) (plain : Run ν σ α) (watched : Run ν (σ × Watch) α) : Prop :=
  ∀ ledger starts, ∃ more, (∀ start ∈ more, limits.Admit start) ∧
    watched (ledger.watched ⟨guard, starts⟩) =
      endSeen (fun after => after.watched ⟨guard, starts ++ more⟩) (plain ledger)

namespace Watches
variable {limits : Limits} {guard : RecursionGuard} {plain : Run ν σ α} {watched : Run ν (σ × Watch) α}

/-- What goes the same way beside any watch starts no rounds. -/
theorem of_projects (projects : ∀ watch, Projects (Ledger.view fun client => (client, watch)) plain watched) :
    Watches limits guard plain watched := by
  intro ledger starts
  refine ⟨[], List.forall_mem_nil _, ?_⟩
  rw [List.append_nil]
  exact (projects ⟨guard, starts⟩).endSeen_eq ledger

theorem bind {next : α → Run ν σ β} {watchedNext : α → Run ν (σ × Watch) β}
    (first : Watches limits guard plain watched)
    (rest : ∀ result, Watches limits guard (next result) (watchedNext result)) :
    Watches limits guard (plain >>= next) (watched >>= watchedNext) := by
  intro ledger starts
  obtain ⟨more, admitted, found⟩ := first ledger starts
  cases ran : plain ledger with
  | ok result middle =>
    rw [ran] at found
    obtain ⟨further, allowed, went⟩ := rest result middle (starts ++ more)
    refine ⟨more ++ further, List.forall_mem_append.mpr ⟨admitted, allowed⟩, ?_⟩
    rw [bind_of_ok found, bind_of_ok ran, went, List.append_assoc]
  | error interruption after =>
    rw [ran] at found
    refine ⟨more, admitted, ?_⟩
    rw [bind_of_error found, bind_of_error ran]
    rfl

theorem mapM {step : β → Run ν σ α} {watchedStep : β → Run ν (σ × Watch) α} (elements : List β)
    (steps : ∀ element, Watches limits guard (step element) (watchedStep element)) :
    Watches limits guard (elements.mapM step) (elements.mapM watchedStep) := by
  induction elements with
  | nil => exact of_projects fun _ => .pure []
  | cons element rest ih =>
    rw [List.mapM_cons, List.mapM_cons]
    exact (steps element).bind fun result => ih.bind fun results => of_projects fun _ => .pure (result :: results)

/-- One more round is started. -/
theorem start {round : Nat} (admitted : limits.Admit ⟨guard.depth, round⟩)
    (watches : Watches limits guard plain watched) : Watches limits guard plain (do noteStart round; watched) := by
  intro ledger starts
  have noted : (noteStart round : Run ν (σ × Watch) Unit) (ledger.watched ⟨guard, starts⟩) =
      .ok () (ledger.watched ⟨guard, starts ++ [⟨guard.depth, round⟩]⟩) := rfl
  obtain ⟨more, allowed, went⟩ := watches ledger (starts ++ [⟨guard.depth, round⟩])
  refine ⟨⟨guard.depth, round⟩ :: more, List.forall_mem_cons.mpr ⟨admitted, allowed⟩, ?_⟩
  rw [bind_of_ok noted, went, List.append_assoc, List.singleton_append]

/-- One level deeper the guard is another one, and it is the old one again afterwards. -/
theorem deeper {exceeded : Nat → Interruption} (room : guard.depth < guard.limit)
    (watches : Watches limits { guard with depth := guard.depth + 1 } plain watched) :
    Watches limits guard plain (checkedRecursion exceeded watched) := by
  intro ledger starts
  have opened : guard.descend? = some { guard with depth := guard.depth + 1 } := if_pos room
  have closed : RecursionGuard.ascend { guard with depth := guard.depth + 1 } = guard := by
    simp only [RecursionGuard.ascend, Nat.add_sub_cancel]
  obtain ⟨more, allowed, went⟩ := watches ledger starts
  refine ⟨more, allowed, ?_⟩
  simp only [checkedRecursion, guardOf_watched, opened, withGuard_watched, went]
  cases plain ledger <;> simp only [endSeen, withGuard_watched, closed, guardOf_watched]

end Watches

variable [Tree ν ω] [DecidableEq ω]

/-- Explores a node that has been explored again `reExplorations` times already. -/
def exploreWatchedRounds (setting : Setting ν ω (Call ν → RuleM σ (Response ν))) (limits : Limits)
    (visit : ν → ν → Run ν (σ × Watch) ν) (root : ν) (outermost : Bool) :
    (clock reExplorations : Nat) → ν → Run ν (σ × Watch) ν
  | 0, _, _ => throw .outOfSteps
  | clock + 1, reExplorations, current => do
    noteStart (reExplorations + 1)
    let again (node : ν) : Run ν (σ × Watch) ν :=
      if limits.reExplorations < reExplorations + 1 then raise (.reExplorationLimit limits.reExplorations)
      else exploreWatchedRounds setting limits visit root outermost clock (reExplorations + 1) node
    exploreRound (setting.lift unaware) visit root outermost again current

/-- Explores a node one level deeper than the guard says. -/
def exploreWatched (setting : Setting ν ω (Call ν → RuleM σ (Response ν))) (limits : Limits) :
    (clock : Nat) → ν → ν → Run ν (σ × Watch) ν
  | 0, _, _ => throw .outOfSteps
  | clock + 1, root, current =>
    checkedRecursion (fun limit => .error (.recursionLimit limit))
      (exploreWatchedRounds setting limits (exploreWatched setting limits clock) root (sameNode root current) clock 0
        current)

def optimizeWatched (setting : Setting ν ω (Call ν → RuleM σ (Response ν))) (limits : Limits) (clock : Nat)
    (root : ν) : RuleM (σ × Watch) (Constrained ν) := do
  let (optimized, constraints) ← (exploreWatched setting limits clock root root).onFreshLedger
  if sameNode optimized root then return ⟨optimized, .none⟩
  else return ⟨optimized, collectConstraints constraints optimized⟩

section Exploration
variable (setting : Setting ν ω (Call ν → RuleM σ (Response ν))) (limits : Limits) {guard : RecursionGuard}

theorem exploreRound_watches {visit : ν → ν → Run ν σ ν} {watchedVisit : ν → ν → Run ν (σ × Watch) ν}
    (visits : ∀ root node, Watches limits guard (visit root node) (watchedVisit root node)) (root : ν)
    (outermost : Bool) {again : ν → Run ν σ ν} {watchedAgain : ν → Run ν (σ × Watch) ν}
    (goes : ∀ node, Watches limits guard (again node) (watchedAgain node)) (current : ν) :
    Watches limits guard (exploreRound setting visit root outermost again current)
      (exploreRound (setting.lift unaware) watchedVisit root outermost watchedAgain current) := by
  rw [← exploreRoundNoting_silent, ← exploreRoundNoting_silent]
  refine (Watches.mapM _ (visits _)).bind fun children => ?_
  refine (Watches.of_projects fun _ => renew_projects (fun _ _ => .pure ()) current children).bind fun rebuilt => ?_
  have driven (watch : Watch) (root : ν) : Projects (Ledger.view fun client => (client, watch))
      (fixpoint setting root rebuilt) (fixpoint (setting.lift unaware) root rebuilt) := by
    have lifts : ∀ rule ∈ setting.rules.rules, ∀ call, Projects (Session.view fun client => (client, watch))
        (id rule.action call) (unaware rule.action call) := fun rule _ => unaware_projects watch rule.action
    have projects := fixpoint_projects lifts root rebuilt
    rwa [setting.lift_id] at projects
  refine (Watches.of_projects fun watch => driven watch _).bind fun outcome => ?_
  cases outcome.reExploredBy with
  | none => exact .of_projects fun _ => .pure _
  | some rule => exact goes _

/-- The counter reaches its limit when no more rounds remain, and the clock does not run down before. -/
theorem exploreRounds_watches {visit : ν → ν → Run ν σ ν} {watchedVisit : ν → ν → Run ν (σ × Watch) ν}
    (visits : ∀ root node, Watches limits guard (visit root node) (watchedVisit root node))
    (within : guard.depth ≤ limits.recursion) (root : ν) (outermost : Bool) {remaining reExplorations clock : Nat}
    (counted : reExplorations + remaining = limits.reExplorations) (enough : remaining < clock) (current : ν) :
    Watches limits guard (exploreRounds setting limits visit root outermost remaining current)
      (exploreWatchedRounds setting limits watchedVisit root outermost clock reExplorations current) := by
  induction remaining generalizing reExplorations clock current with
  | zero =>
    obtain ⟨clock, rfl⟩ := Nat.exists_eq_add_of_le' enough
    refine .start ⟨within, Nat.succ_le_succ (by omega)⟩
      (exploreRound_watches setting limits visits root outermost ?_ current)
    intro node
    rw [if_pos (by omega)]
    exact .of_projects fun _ => .raise _
  | succ remaining ih =>
    obtain ⟨clock, rfl⟩ := Nat.exists_eq_add_of_le' (Nat.lt_of_le_of_lt (Nat.zero_le _) enough)
    refine .start ⟨within, Nat.succ_le_succ (by omega)⟩
      (exploreRound_watches setting limits visits root outermost ?_ current)
    intro node
    rw [if_neg (by omega)]
    exact ih (by omega) (by omega) node

/-- The guard refuses to go deeper when no more levels are allowed, and the clock does not run down before. -/
theorem explore_watches {depth clock : Nat} (bounded : guard.limit = limits.recursion)
    (counted : guard.depth + depth = limits.recursion) (enough : depth + limits.reExplorations < clock)
    (root current : ν) :
    Watches limits guard (explore setting limits depth root current)
      (exploreWatched setting limits clock root current) := by
  induction depth generalizing guard clock root current with
  | zero =>
    obtain ⟨clock, rfl⟩ := Nat.exists_eq_add_of_le' (Nat.lt_of_le_of_lt (Nat.zero_le _) enough)
    have closed : guard.descend? = none := if_neg (by omega)
    intro ledger starts
    refine ⟨[], List.forall_mem_nil _, ?_⟩
    simp only [exploreWatched, checkedRecursion, guardOf_watched, closed, bounded, List.append_nil]
    rfl
  | succ depth ih =>
    obtain ⟨clock, rfl⟩ := Nat.exists_eq_add_of_le' (Nat.lt_of_le_of_lt (Nat.zero_le _) enough)
    let deeper : RecursionGuard := { guard with depth := guard.depth + 1 }
    have deeperBounded : deeper.limit = limits.recursion := bounded
    have deeperCounted : deeper.depth + depth = limits.recursion := by
      show guard.depth + 1 + depth = limits.recursion
      omega
    have visits (root node : ν) : Watches limits deeper (explore setting limits depth root node)
        (exploreWatched setting limits clock root node) := ih deeperBounded deeperCounted (by omega) root node
    exact .deeper (by omega) (exploreRounds_watches setting limits visits (by omega) root _ (Nat.zero_add _)
      (by omega) current)

/-- With a clock that is large enough for the limits, optimization ends as it does otherwise, at the depth where it
began, and starts no rounds but admitted ones. -/
theorem optimize_watches {clock : Nat} (enough : limits.recursion + limits.reExplorations < clock) (root : ν)
    (session : Session σ) :
    let guard := RecursionGuard.withLimit limits.recursion
    ∃ starts, (∀ start ∈ starts, limits.Admit start) ∧
      optimizeWatched setting limits clock root (session.watched ⟨guard, []⟩) =
        endSeen (fun after => after.watched ⟨guard, starts⟩) (optimize setting limits root session) := by
  intro guard
  have explored : Watches limits guard (explore setting limits limits.recursion root root)
      (exploreWatched setting limits clock root root) :=
    explore_watches setting limits rfl (Nat.zero_add _) enough root root
  obtain ⟨starts, admitted, went⟩ := explored { toSession := session } []
  refine ⟨starts, admitted, ?_⟩
  have fresh : (Ledger.watched { toSession := session } ⟨guard, []⟩ : Ledger ν (σ × Watch)) =
      { toSession := session.watched ⟨guard, []⟩ } := rfl
  rw [fresh, List.nil_append] at went
  rw [optimizeWatched, optimize]
  cases ran : explore setting limits limits.recursion root root { toSession := session } with
  | ok optimized after =>
    rw [ran] at went
    rw [bind_of_ok (onFreshLedger_of_ok ran), bind_of_ok (onFreshLedger_of_ok went)]
    cases same : sameNode optimized root <;> simp only [same] <;> rfl
  | error interruption after =>
    rw [ran] at went
    rw [bind_of_error (onFreshLedger_of_error ran), bind_of_error (onFreshLedger_of_error went)]
    rfl

end Exploration
end QueryOptimizer
