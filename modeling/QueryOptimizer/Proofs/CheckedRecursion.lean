import QueryOptimizer.Error
import QueryOptimizer.Proofs.Computation
import QueryOptimizer.RecursionGuard

/-!
Recursive programs under a recursion guard. The guard is restored by hand after each call, so that its depth has to be
followed through every way in which the body of a procedure can end.
-/
namespace QueryOptimizer

/-- A program that calls procedures. It looks at the outcome of each call, be it a result or an error, before it
decides how to go on, and so it may pass an error on, raise another one, or ignore it. -/
inductive RecursiveProgram (P : Type) (Failure Result : P → Type) (σ ε α : Type) where
  | finish (result : α)
  | fail (error : ε)
  /-- Looks at the guard and at what else there is in the state. -/
  | look (next : RecursionGuard → σ → RecursiveProgram P Failure Result σ ε α)
  | write (client : σ) (next : RecursiveProgram P Failure Result σ ε α)
  | call (procedure : P)
      (next : Except (Failure procedure) (Result procedure) → RecursiveProgram P Failure Result σ ε α)

/-- Procedures that may call one another and themselves, each by checked recursion. A procedure is given with its
arguments, and has errors and results of its own. -/
structure Procedures (P : Type) (Failure Result : P → Type) (σ : Type) where
  body : ∀ procedure, RecursiveProgram P Failure Result σ (Failure procedure) (Result procedure)
  /-- The error of a call at the given limit. -/
  exceeded : ∀ procedure : P, Nat → Failure procedure

/-- How a body was run: the depth at its beginning and at its end, and the calls in between. -/
structure BodyRun (κ : Type) where
  entered : Nat
  left : Nat
  calls : List κ

/-- What was seen of a call: the depth before and after it, how the body was run if it was, and the outcome. -/
structure SeenCall (P : Type) (Failure Result : P → Type) where
  procedure : P
  before : Nat
  run? : Option (BodyRun (SeenCall P Failure Result))
  outcome : Except (Failure procedure) (Result procedure)
  after : Nat

/-- The call was made while so many bodies were running, or within one of these calls. -/
inductive SeenCall.At {P : Type} {Failure Result : P → Type} :
    Nat → SeenCall P Failure Result → List (SeenCall P Failure Result) → Prop
  | here {call : SeenCall P Failure Result} {calls : List (SeenCall P Failure Result)} (member : call ∈ calls) :
      SeenCall.At 0 call calls
  | deeper {nesting : Nat} {call outer : SeenCall P Failure Result} {calls : List (SeenCall P Failure Result)}
      {run : BodyRun (SeenCall P Failure Result)} (member : outer ∈ calls) (ran : outer.run? = some run)
      (within : SeenCall.At nesting call run.calls) : SeenCall.At (nesting + 1) call calls

/-- The state of a program under a guard, with the calls that the current body has made so far. -/
structure Traced (P : Type) (Failure Result : P → Type) (σ : Type) where
  guard : RecursionGuard
  client : σ
  calls : List (SeenCall P Failure Result) := []
  /-- The body that was left last, unless a call was made since. -/
  run? : Option (BodyRun (SeenCall P Failure Result)) := none

variable {P : Type} {Failure Result : P → Type} {σ ε α : Type}

instance : Guarded (Traced P Failure Result σ) := ⟨Traced.guard, fun state guard => { state with guard }⟩

/-- Takes down how a body was run. -/
def Traced.left (before after : Traced P Failure Result σ) : Traced P Failure Result σ :=
  { after with calls := before.calls, run? := some ⟨before.guard.depth, after.guard.depth, after.calls⟩ }

/-- Runs a body with calls of its own. -/
def traceBody (body : EStateM ε (Traced P Failure Result σ) α) : EStateM ε (Traced P Failure Result σ) α :=
  fun state =>
    match body { state with calls := [] } with
    | .ok result after => .ok result (state.left after)
    | .error error after => .error error (state.left after)

/-- Takes down what was seen of a call that has returned. -/
def Traced.returned (before : Traced P Failure Result σ) (procedure : P)
    (outcome : Except (Failure procedure) (Result procedure)) (after : Traced P Failure Result σ) :
    Traced P Failure Result σ :=
  { after with
    calls := after.calls ++ [⟨procedure, before.guard.depth, after.run?, outcome, after.guard.depth⟩], run? := none }

/-- The outcome of a call, and what was seen of it. -/
def traceCall (procedure : P)
    (call : EStateM (Failure procedure) (Traced P Failure Result σ) (Result procedure))
    (state : Traced P Failure Result σ) :
    Except (Failure procedure) (Result procedure) × Traced P Failure Result σ :=
  match call { state with run? := none } with
  | .ok result after => (.ok result, state.returned procedure (.ok result) after)
  | .error error after => (.error error, state.returned procedure (.error error) after)

/-- Runs a program whose calls do what `invoke` says. -/
def RecursiveProgram.run
    (invoke : ∀ procedure, EStateM (Failure procedure) (Traced P Failure Result σ) (Result procedure)) :
    RecursiveProgram P Failure Result σ ε α → EStateM ε (Traced P Failure Result σ) α
  | .finish result => fun state => .ok result state
  | .fail error => fun state => .error error state
  | .look next => fun state => (next state.guard state.client).run invoke state
  | .write client next => fun state => next.run invoke { state with client }
  | .call procedure next => fun state =>
    let (outcome, after) := traceCall procedure (invoke procedure) state
    (next outcome).run invoke after

namespace Procedures
variable (procedures : Procedures P Failure Result σ)

/-- Calls a procedure whose body may be nested in itself and others at most `levels` deep, by checked recursion. -/
def invokeWithin : (levels : Nat) → ∀ procedure,
    EStateM (Failure procedure) (Traced P Failure Result σ) (Result procedure)
  | 0, procedure => checkedRecursion (procedures.exceeded procedure)
      (traceBody fun state => .error (procedures.exceeded procedure state.guard.limit) state)
  | levels + 1, procedure => checkedRecursion (procedures.exceeded procedure)
      (traceBody ((procedures.body procedure).run (invokeWithin levels)))

/-- Calls a procedure. No more bodies can be nested than the guard has levels left. -/
def invoke (procedure : P) : EStateM (Failure procedure) (Traced P Failure Result σ) (Result procedure) :=
  fun state => procedures.invokeWithin (state.guard.limit - state.guard.depth) procedure state

end Procedures

abbrev RecursionGuard.deeper (guard : RecursionGuard) : RecursionGuard :=
  { guard with depth := guard.depth + 1 }

/-- At the limit, checked recursion fails and does nothing. Below it, the body is run one level deeper, and the guard
comes back up from wherever the body has left it. -/
theorem checkedRecursion_ends {S : Type} [Guarded S] {exceeded : Nat → ε} {body : EStateM ε S α} {state : S}
    {returns : α → S → Prop} {stops : ε → S → Prop} {guard : RecursionGuard} (guarded : Guarded.guardOf state = guard)
    (full : guard.limit ≤ guard.depth → stops (exceeded guard.limit) state)
    (room : guard.depth < guard.limit → Ends body (Guarded.withGuard state guard.deeper)
      (fun result after => returns result (Guarded.withGuard after (Guarded.guardOf after).ascend))
      fun error after => stops error (Guarded.withGuard after (Guarded.guardOf after).ascend)) :
    Ends (checkedRecursion exceeded body) state returns stops := by
  subst guarded
  unfold Ends checkedRecursion at *
  by_cases below : (Guarded.guardOf state).depth < (Guarded.guardOf state).limit
  · have entered := room below
    simp only [RecursionGuard.descend?, if_pos below]
    cases ran : body (Guarded.withGuard state (Guarded.guardOf state).deeper)
    all_goals simpa only [ran] using entered
  · simp only [RecursionGuard.descend?, if_neg below]
    exact full (Nat.le_of_not_lt below)

/-- It only matters what the body does one level deeper, and only below the limit. -/
theorem checkedRecursion_congr {S : Type} [Guarded S] {exceeded : Nat → ε} {body other : EStateM ε S α} {state : S}
    {guard : RecursionGuard} (guarded : Guarded.guardOf state = guard)
    (same : guard.depth < guard.limit →
      body (Guarded.withGuard state guard.deeper) =
        other (Guarded.withGuard state guard.deeper)) :
    checkedRecursion exceeded body state = checkedRecursion exceeded other state := by
  subst guarded
  unfold checkedRecursion
  by_cases below : (Guarded.guardOf state).depth < (Guarded.guardOf state).limit
  · simp only [RecursionGuard.descend?, if_pos below, same below]
  · simp only [RecursionGuard.descend?, if_neg below]

/-- The call was made at the given depth and left the guard at that depth. Its body was run exactly if this is below
the limit, one level deeper from beginning to end; otherwise the call failed for the limit. -/
structure SeenCall.Exact (procedures : Procedures P Failure Result σ) (limit depth : Nat)
    (call : SeenCall P Failure Result) : Prop where
  before : call.before = depth
  after : call.after = depth
  runs_iff : call.run?.isSome = true ↔ depth < limit
  refused : call.run? = none → call.outcome = .error (procedures.exceeded call.procedure limit)
  deeper : ∀ run, call.run? = some run → run.entered = depth + 1 ∧ run.left = depth + 1

/-- The calls were made at the depth of the guard, and those within them at the depth that they are nested at. -/
def ExactWithin (procedures : Procedures P Failure Result σ) (guard : RecursionGuard)
    (calls : List (SeenCall P Failure Result)) : Prop :=
  ∀ nesting (call : SeenCall P Failure Result), call.At nesting calls →
    call.Exact procedures guard.limit (guard.depth + nesting)

/-- From the one state to the other, the guard has stayed as it was, and the calls that have been added are exact. -/
structure Continues (procedures : Procedures P Failure Result σ) (guard : RecursionGuard)
    (state after : Traced P Failure Result σ) : Prop where
  kept : after.guard = guard
  added : ∃ more, after.calls = state.calls ++ more ∧ ExactWithin procedures guard more

/-- Under the guard, calls of the procedure continue like this, whatever their outcome. -/
def Balanced (procedures : Procedures P Failure Result σ) (guard : RecursionGuard) (procedure : P)
    (call : EStateM (Failure procedure) (Traced P Failure Result σ) (Result procedure)) : Prop :=
  ∀ state : Traced P Failure Result σ, state.guard = guard →
    Continues procedures guard state (traceCall procedure call state).2

section Balance
variable {procedures : Procedures P Failure Result σ} {guard : RecursionGuard}

theorem SeenCall.At.of_append {nesting : Nat} {call : SeenCall P Failure Result}
    {calls more : List (SeenCall P Failure Result)} (within : call.At nesting (calls ++ more)) :
    call.At nesting calls ∨ call.At nesting more := by
  cases within with
  | here member => exact (List.mem_append.mp member).imp .here .here
  | deeper member ran within => exact (List.mem_append.mp member).imp (.deeper · ran within) (.deeper · ran within)

theorem exactWithin_nil : ExactWithin procedures guard [] := by
  intro nesting call within
  cases within with
  | here member => cases member
  | deeper member => cases member

theorem ExactWithin.append {calls more : List (SeenCall P Failure Result)}
    (first : ExactWithin procedures guard calls) (rest : ExactWithin procedures guard more) :
    ExactWithin procedures guard (calls ++ more) :=
  fun nesting call within => within.of_append.elim (first nesting call) (rest nesting call)

/-- A single call is exact together with the calls that its body has made one level deeper. -/
theorem exactWithin_singleton {call : SeenCall P Failure Result}
    (here : call.Exact procedures guard.limit guard.depth)
    (below : ∀ run, call.run? = some run →
      ExactWithin procedures guard.deeper run.calls) :
    ExactWithin procedures guard [call] := by
  intro nesting inner within
  cases within with
  | here member => exact List.mem_singleton.mp member ▸ here
  | deeper member ran within =>
    obtain rfl := List.mem_singleton.mp member
    have precise := below _ ran _ inner within
    rwa [Nat.add_assoc, Nat.add_comm 1] at precise

theorem Continues.trans {state middle after : Traced P Failure Result σ}
    (first : Continues procedures guard state middle) (second : Continues procedures guard middle after) :
    Continues procedures guard state after := by
  obtain ⟨-, calls, added, precise⟩ := first
  obtain ⟨kept, more, extended, others⟩ := second
  exact ⟨kept, calls ++ more, by rw [extended, added, List.append_assoc], precise.append others⟩

/-- A program continues as its calls do, however it ends. -/
theorem run_balanced {invoke : ∀ procedure, EStateM (Failure procedure) (Traced P Failure Result σ) (Result procedure)}
    (calls : ∀ procedure, Balanced procedures guard procedure (invoke procedure))
    (program : RecursiveProgram P Failure Result σ ε α) {state : Traced P Failure Result σ}
    (guarded : state.guard = guard) :
    EndsIn (program.run invoke) state (Continues procedures guard state) := by
  induction program generalizing state with
  | finish | fail => exact ⟨guarded, [], (List.append_nil _).symm, exactWithin_nil⟩
  | look next ih => exact ih _ _ guarded
  | write client next ih =>
    have final : EndsIn (next.run invoke) { state with client } (Continues procedures guard { state with client }) :=
      ih guarded
    exact final.mono (fun _ _ ⟨kept, added⟩ => ⟨kept, added⟩) fun _ _ ⟨kept, added⟩ => ⟨kept, added⟩
  | call procedure next ih =>
    have called := calls procedure state guarded
    exact (ih (traceCall procedure (invoke procedure) state).1 called.kept).mono (fun _ _ => called.trans)
      fun _ _ => called.trans

theorem traceBody_ends {body : EStateM ε (Traced P Failure Result σ) α} {state : Traced P Failure Result σ}
    {returns : α → Traced P Failure Result σ → Prop} {stops : ε → Traced P Failure Result σ → Prop}
    (ends : Ends body { state with calls := [] } (fun result after => returns result (state.left after))
      fun error after => stops error (state.left after)) : Ends (traceBody body) state returns stops := by
  unfold Ends traceBody at *
  cases ran : body { state with calls := [] }
  all_goals simpa only [ran] using ends

theorem traceBody_congr {body other : EStateM ε (Traced P Failure Result σ) α} {state : Traced P Failure Result σ}
    (same : body { state with calls := [] } = other { state with calls := [] }) :
    traceBody body state = traceBody other state := by
  simp only [traceBody, same]

theorem traceCall_ends {procedure : P}
    {call : EStateM (Failure procedure) (Traced P Failure Result σ) (Result procedure)}
    {state : Traced P Failure Result σ} {holds : Traced P Failure Result σ → Prop}
    (ends : Ends call { state with run? := none }
      (fun result after => holds (state.returned procedure (.ok result) after))
      fun error after => holds (state.returned procedure (.error error) after)) :
    holds (traceCall procedure call state).2 := by
  unfold Ends at ends
  unfold traceCall
  cases ran : call { state with run? := none }
  all_goals simpa only [ran] using ends

/-- A call whose body was run one level deeper is exact, together with the calls that were made there. -/
theorem continues_of_left {procedure : P} {outcome : Except (Failure procedure) (Result procedure)}
    {state after : Traced P Failure Result σ} (guarded : state.guard = guard) (room : guard.depth < guard.limit)
    (left : after.guard = guard.deeper) (precise : ExactWithin procedures guard.deeper after.calls) :
    Continues procedures guard state (state.returned procedure outcome
      { Traced.left { state with guard := guard.deeper, run? := none } after with guard := after.guard.ascend }) := by
  have ascended : after.guard.ascend = guard := by
    rw [left, RecursionGuard.ascend, Nat.add_sub_cancel]
  refine ⟨ascended, _, rfl, exactWithin_singleton ⟨?_, ?_, ?_, ?_, ?_⟩ ?_⟩
  · exact congrArg RecursionGuard.depth guarded
  · exact congrArg RecursionGuard.depth ascended
  · exact iff_of_true rfl room
  · exact fun absent => nomatch absent
  · rintro run ⟨⟩
    exact ⟨rfl, congrArg RecursionGuard.depth left⟩
  · rintro run ⟨⟩
    exact precise

/-- Checked recursion is balanced if the body is, one level deeper. -/
theorem checkedRecursion_balanced {procedure : P}
    {body : EStateM (Failure procedure) (Traced P Failure Result σ) (Result procedure)}
    (deeper : guard.depth < guard.limit → ∀ state : Traced P Failure Result σ,
      state.guard = guard.deeper → state.calls = [] →
        EndsIn body state fun after => after.guard = guard.deeper ∧
          ExactWithin procedures guard.deeper after.calls) :
    Balanced procedures guard procedure (checkedRecursion (procedures.exceeded procedure) (traceBody body)) := by
  intro state guarded
  refine @traceCall_ends _ _ _ _ _ _ _ (Continues procedures guard state) (checkedRecursion_ends guarded ?_ ?_)
  · intro full
    refine ⟨guarded, _, rfl, exactWithin_singleton ⟨congrArg RecursionGuard.depth guarded,
      congrArg RecursionGuard.depth guarded, ?_, fun _ => rfl, fun _ ran => nomatch ran⟩ fun _ ran => nomatch ran⟩
    simpa using full
  · intro room
    refine traceBody_ends ((deeper room _ rfl rfl).mono ?_ ?_)
    all_goals
      rintro _ after ⟨left, precise⟩
      exact continues_of_left guarded room left precise

/-- With as many levels as the guard has left, procedures are balanced. -/
theorem invokeWithin_balanced {levels : Nat} (enough : guard.limit ≤ guard.depth + levels) (procedure : P) :
    Balanced procedures guard procedure (procedures.invokeWithin levels procedure) := by
  induction levels generalizing guard procedure with
  | zero => exact checkedRecursion_balanced fun room => absurd room (Nat.not_lt.mpr enough)
  | succ levels ih =>
    refine checkedRecursion_balanced fun room state guarded fresh => ?_
    have deeper : guard.deeper.limit ≤ guard.deeper.depth + levels := by
      simp only
      omega
    refine (run_balanced (ih deeper) (procedures.body procedure) guarded).mono ?_ ?_
    all_goals
      rintro _ after ⟨kept, more, added, precise⟩
      rw [fresh, List.nil_append] at added
      exact ⟨kept, added ▸ precise⟩

theorem invoke_balanced (procedure : P) : Balanced procedures guard procedure (procedures.invoke procedure) := by
  intro state guarded
  subst guarded
  have enough : state.guard.limit ≤ state.guard.depth + (state.guard.limit - state.guard.depth) := by omega
  exact invokeWithin_balanced enough procedure state rfl

/-- It does not matter by which of two interpretations calls are made that agree under the guard. -/
theorem run_congr
    {invoke other : ∀ procedure, EStateM (Failure procedure) (Traced P Failure Result σ) (Result procedure)}
    (agree : ∀ procedure (state : Traced P Failure Result σ), state.guard = guard →
      invoke procedure state = other procedure state)
    (calls : ∀ procedure, Balanced procedures guard procedure (invoke procedure))
    (program : RecursiveProgram P Failure Result σ ε α) {state : Traced P Failure Result σ}
    (guarded : state.guard = guard) : program.run invoke state = program.run other state := by
  induction program generalizing state with
  | finish | fail => rfl
  | look next ih => exact ih _ _ guarded
  | write client next ih => exact ih guarded
  | call procedure next ih =>
    have same : traceCall procedure (invoke procedure) state = traceCall procedure (other procedure) state := by
      simp only [traceCall, agree procedure { state with run? := none } guarded]
    -- Once the call has returned, the guard is what it was, and the two agree on what follows.
    have final := ih (traceCall procedure (invoke procedure) state).1 (calls procedure state guarded).kept
    simp only [RecursiveProgram.run, ← same]
    exact final

/-- A call of a procedure is checked recursion with its body, in which calls are calls of procedures again. -/
theorem invoke_eq (procedures : Procedures P Failure Result σ) (procedure : P) :
    procedures.invoke procedure =
      checkedRecursion (procedures.exceeded procedure)
        (traceBody ((procedures.body procedure).run procedures.invoke)) := by
  funext state
  unfold Procedures.invoke
  cases left : state.guard.limit - state.guard.depth with
  | zero =>
    refine checkedRecursion_congr rfl fun room => ?_
    have below : state.guard.depth < state.guard.limit := room
    omega
  | succ levels =>
    refine checkedRecursion_congr rfl fun room => ?_
    have enough : state.guard.deeper.limit ≤ state.guard.deeper.depth + levels := by
      simp only
      omega
    -- Wherever the body makes a call, the guard is one level deeper, and has as many levels left as were counted.
    refine traceBody_congr (run_congr ?_ (invokeWithin_balanced enough) (procedures.body procedure) rfl)
    intro inner later guarded
    have remaining : later.guard.limit - later.guard.depth = levels := by
      rw [guarded]
      simp only
      omega
    simp only [remaining]

theorem ExactWithin.deeper {calls : List (SeenCall P Failure Result)} (precise : ExactWithin procedures guard calls)
    {outer : SeenCall P Failure Result} (member : outer ∈ calls) {run : BodyRun (SeenCall P Failure Result)}
    (ran : outer.run? = some run) : ExactWithin procedures guard.deeper run.calls := by
  intro nesting call within
  have found := precise (nesting + 1) call (.deeper member ran within)
  rwa [Nat.add_comm nesting 1, ← Nat.add_assoc] at found

/-- No call is made beyond the limit, as the body that makes it was itself run below the limit. -/
theorem ExactWithin.le_limit {nesting : Nat} {call : SeenCall P Failure Result}
    {calls : List (SeenCall P Failure Result)} (within : call.At nesting calls)
    (precise : ExactWithin procedures guard calls) (start : guard.depth ≤ guard.limit) :
    guard.depth + nesting ≤ guard.limit := by
  induction within generalizing guard with
  | here => exact start
  | deeper member ran _ ih =>
    have room : guard.depth < guard.limit :=
      (precise 0 _ (.here member)).runs_iff.mp (Option.isSome_iff_exists.mpr ⟨_, ran⟩)
    have deeper := ih (precise.deeper member ran) room
    simp only at deeper
    omega

end Balance

/-- Whatever a program does with the outcomes of its calls, it leaves the guard as it was, and so does each call made
on the way. A call runs its body exactly if it is made below the limit, and the body ends one level deeper, where it
began. At the limit the call fails, and the guard never gets beyond that. -/
theorem checked_recursion_is_balanced (procedures : Procedures P Failure Result σ) :
    (∀ procedure, procedures.invoke procedure =
      checkedRecursion (procedures.exceeded procedure)
        (traceBody ((procedures.body procedure).run procedures.invoke))) ∧
    ∀ (program : RecursiveProgram P Failure Result σ ε α) (guard : RecursionGuard) (client : σ), ∃ calls,
      EndsIn (program.run procedures.invoke) ⟨guard, client, [], none⟩
        (fun after => after.guard = guard ∧ after.calls = calls) ∧
      ∀ nesting (call : SeenCall P Failure Result), call.At nesting calls →
        (call.before = guard.depth + nesting ∧ call.after = call.before) ∧
        (call.run?.isSome = true ↔ call.before < guard.limit) ∧
        (call.run? = none → call.outcome = .error (procedures.exceeded call.procedure guard.limit)) ∧
        (∀ run, call.run? = some run → run.entered = call.before + 1 ∧ run.left = run.entered) ∧
        (guard.depth ≤ guard.limit →
          call.before ≤ guard.limit ∧ ∀ run, call.run? = some run → run.entered ≤ guard.limit) := by
  refine ⟨invoke_eq procedures, fun program guard client => ?_⟩
  have balanced : EndsIn (program.run procedures.invoke) ⟨guard, client, [], none⟩
      (Continues procedures guard ⟨guard, client, [], none⟩) := run_balanced invoke_balanced program rfl
  obtain ⟨last, ended, kept, calls, added, precise⟩ := balanced.exists
  refine ⟨calls, ended.mono ?_ ?_, ?_⟩
  · rintro _ after rfl
    exact ⟨kept, added⟩
  · rintro _ after rfl
    exact ⟨kept, added⟩
  · intro nesting call within
    have seen := precise nesting call within
    have deeper : ∀ run, call.run? = some run → run.entered = call.before + 1 ∧ run.left = run.entered := by
      intro run ran
      obtain ⟨entered, left⟩ := seen.deeper run ran
      exact ⟨by rw [entered, seen.before], left.trans entered.symm⟩
    have runs_iff : call.run?.isSome = true ↔ call.before < guard.limit := by
      rw [seen.before]
      exact seen.runs_iff
    refine ⟨⟨seen.before, seen.after.trans seen.before.symm⟩, runs_iff, seen.refused, deeper, fun start => ⟨?_, ?_⟩⟩
    · rw [seen.before]
      exact precise.le_limit within start
    · intro run ran
      rw [(deeper run ran).1]
      exact runs_iff.mp (Option.isSome_iff_exists.mpr ⟨run, ran⟩)

namespace Countdown

/-- Counts down from a number, one call for each step. -/
def procedures : Procedures Nat (fun _ => Error) (fun _ => Nat) Unit where
  body
    | 0 => .finish 0
    | number + 1 => .call number fun
      | .ok steps => .finish (1 + steps)
      | .error error => .fail error
  exceeded _ := .recursionLimit

/-- Counts down from 3 and, whatever comes of that, from 1. -/
def twice : RecursiveProgram Nat (fun _ => Error) (fun _ => Nat) Unit Error Nat :=
  .call 3 fun _ => .call 1 fun
    | .ok steps => .finish steps
    | .error error => .fail error

def refused : SeenCall Nat (fun _ => Error) fun _ => Nat :=
  ⟨1, 2, none, .error (.recursionLimit 2), 2⟩

def failed : SeenCall Nat (fun _ => Error) fun _ => Nat :=
  ⟨3, 0, some ⟨1, 1, [⟨2, 1, some ⟨2, 2, [refused]⟩, .error (.recursionLimit 2), 1⟩]⟩, .error (.recursionLimit 2), 0⟩

def counted : SeenCall Nat (fun _ => Error) fun _ => Nat :=
  ⟨1, 0, some ⟨1, 1, [⟨0, 1, some ⟨2, 2, []⟩, .ok 0, 1⟩]⟩, .ok 1, 0⟩

end Countdown

open Countdown in
/-- Counting down from 3 fails where there are no more than two levels. That is ignored, and counting down from 1
succeeds under the same guard. -/
theorem checked_recursion_is_balanced_countdown :
    let guard := RecursionGuard.withLimit 2
    twice.run procedures.invoke ⟨guard, (), [], none⟩ = .ok 1 ⟨guard, (), [failed, counted], none⟩ ∧
      refused.At 2 [failed, counted] ∧ refused.run? = none ∧ refused.before = guard.depth + 2 ∧
      ¬ refused.before < guard.limit ∧ refused.outcome = .error (procedures.exceeded 1 guard.limit) ∧
      guard.depth ≤ guard.limit ∧ refused.before ≤ guard.limit ∧
      counted.At 0 [failed, counted] ∧ counted.before < guard.limit ∧ counted.after = counted.before := by
  intro guard
  have ran : twice.run procedures.invoke ⟨guard, (), [], none⟩ = .ok 1 ⟨guard, (), [failed, counted], none⟩ := by
    cbv
  have known := (checked_recursion_is_balanced procedures).2 twice guard ()
  generalize twice.run procedures.invoke = run at ran known ⊢
  obtain ⟨calls, ended, precise⟩ := known
  obtain rfl : [failed, counted] = calls := (ended.at_ok ran).2
  have nested : refused.At 2 [failed, counted] :=
    .deeper (List.mem_cons_self ..) rfl (.deeper (List.mem_cons_self ..) rfl (.here (List.mem_cons_self ..)))
  have last : counted.At 0 [failed, counted] := .here (List.mem_cons_of_mem _ (List.mem_cons_self ..))
  obtain ⟨⟨before, -⟩, runs_iff, stopped, -, limited⟩ := precise 2 refused nested
  obtain ⟨⟨-, after⟩, counts_iff, -⟩ := precise 0 counted last
  have full : ¬ refused.before < guard.limit := fun room => nomatch runs_iff.mpr room
  have start : guard.depth ≤ guard.limit := by decide
  exact ⟨ran, nested, rfl, before, full, stopped rfl, start, (limited start).1, last, counts_iff.mp rfl, after⟩

end QueryOptimizer
