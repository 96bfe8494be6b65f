import QueryOptimizer.Proofs.Memo.Outcome

/-!
The memos that clients can bring about by calls, in any order and whether each of them succeeds or fails,
and what holds of all of them.
-/
namespace QueryOptimizer
variable {ε : Type}

/-- A change to a reference that leaves it its name, and adds no members with identities from `bound` on. -/
structure Reference.KeptBy (bound : Nat) (change : Reference ε → Reference ε) : Prop where
  id : ∀ reference, (change reference).id = reference.id
  members : ∀ reference, (∀ member ∈ reference.exploratory ++ reference.finals, member.id.index < bound) →
    ∀ member ∈ (change reference).exploratory ++ (change reference).finals, member.id.index < bound

namespace Reference.KeptBy
variable {bound : Nat} {member : Member ε}

/-- A change may be left out of some references. -/
theorem skipping {change : Reference ε → Reference ε} (kept : KeptBy bound change) (test : Reference ε → Bool) :
    KeptBy bound fun reference => if test reference then reference else change reference := by
  constructor
  case id =>
    intro reference
    split
    · rfl
    · exact kept.id reference
  case members =>
    intro reference earlier
    split
    · exact earlier
    · exact kept.members reference earlier

theorem addExploratory (passed : member.id.index < bound) :
    KeptBy bound fun reference => reference.addExploratory member := by
  have appended : KeptBy bound fun reference : Reference ε =>
      { reference with exploratory := reference.exploratory ++ [member] } := by
    refine ⟨fun _ => rfl, fun reference earlier other present => ?_⟩
    simp only [List.mem_append, List.mem_singleton] at present earlier
    rcases present with (old | rfl) | committed
    · exact earlier other (.inl old)
    · exact passed
    · exact earlier other (.inr committed)
  exact appended.skipping fun reference => reference.isExploratory member

theorem addFinal (passed : member.id.index < bound) :
    KeptBy bound fun reference => reference.addFinal member := by
  have appended : KeptBy bound fun reference : Reference ε =>
      { reference with finals := reference.finals ++ [member] } := by
    refine ⟨fun _ => rfl, fun reference earlier other present => ?_⟩
    simp only [List.mem_append, List.mem_singleton] at present earlier
    rcases present with explored | old | rfl
    · exact earlier other (.inl explored)
    · exact earlier other (.inr old)
    · exact passed
  exact appended.skipping fun reference => reference.isFinal member

theorem setStage (stage : PlannerStage) : KeptBy bound fun reference : Reference ε => { reference with stage } :=
  ⟨fun _ => rfl, fun _ earlier => earlier⟩

end Reference.KeptBy

namespace Memo
variable {memo : Memo ε} {id : ReferenceId}

/-- A change keeps to the reference it is made to. -/
theorem update_ok {change : Reference ε → Reference ε} {later : Memo ε} (updated : memo.update id change = .ok later) :
    ∃ reference, memo.get? id = some reference ∧ later.ids = memo.ids ∧ later.size = memo.size ∧
      ∀ other, later.get? other = if other = id then some (change reference) else memo.get? other := by
  unfold update at updated
  cases found : memo.get? id with
  | none =>
    rw [find_of_none found] at updated
    cases updated
  | some reference =>
    rw [find_of_get? found] at updated
    obtain rfl := Except.ok.inj updated
    refine ⟨reference, rfl, rfl, Std.ExtTreeMap.size_modify, ?_⟩
    intro other
    simp only [get?, Std.ExtTreeMap.getElem?_modify, Std.LawfulEqOrd.compare_eq_iff_eq]
    by_cases same : id = other
    · subst same
      rw [if_pos rfl, if_pos rfl]
      exact congrArg (Option.map change) found
    · rw [if_neg same, if_neg (Ne.symm same)]

/-- All identifiers handed out so far are in use, each for the reference that is called so. -/
structure Orderly (memo : Memo ε) : Prop where
  size : memo.size = memo.ids.allocated
  dense : ∀ id : ReferenceId, id.index < memo.ids.allocated → ∃ reference, memo.get? id = some reference
  named : ∀ id reference, memo.get? id = some reference → reference.id = id

namespace Orderly

theorem empty : (Memo.empty : Memo ε).Orderly where
  size := Std.ExtTreeMap.size_empty
  dense _ below := absurd below (Nat.not_lt_zero _)
  named id reference found := by
    rw [get?_empty] at found
    cases found

theorem insert (orderly : memo.Orderly) (stage : PlannerStage) (exploratory finals : List (Member ε)) :
    (memo.insert stage exploratory finals).2.Orderly := by
  have next : (memo.insert stage exploratory finals).2.ids.allocated = memo.ids.allocated + 1 := rfl
  constructor
  case size => rw [size_insert, orderly.size, next]
  case dense =>
    intro id below
    rw [get?_insert]
    split
    · exact ⟨_, rfl⟩
    · rename_i other
      have different : id.index ≠ memo.ids.allocated := fun same => other (ReferenceId.ext same)
      rw [next] at below
      exact orderly.dense id (Nat.lt_of_le_of_ne (Nat.le_of_lt_succ below) different)
  case named =>
    intro id reference found
    rw [get?_insert] at found
    split at found
    · rename_i new
      obtain rfl := Option.some.inj found
      exact new.symm
    · exact orderly.named id reference found

theorem inserted (orderly : memo.Orderly) {later : Memo ε} (inserted : memo.Inserted later) : later.Orderly := by
  induction inserted with
  | refl => exact orderly
  | insert stage exploratory finals _ ih => exact ih.insert stage exploratory finals

theorem update (orderly : memo.Orderly) {change : Reference ε → Reference ε} {later : Memo ε}
    (updated : memo.update id change = .ok later) (keeps : ∀ reference, (change reference).id = reference.id) :
    later.Orderly := by
  obtain ⟨reference, found, ids, size, known⟩ := update_ok updated
  constructor
  case size => rw [size, orderly.size, ids]
  case dense =>
    intro other below
    rw [known]
    split
    · exact ⟨_, rfl⟩
    · exact orderly.dense other (ids ▸ below)
  case named =>
    intro other changed present
    rw [known] at present
    split at present
    · rename_i same
      obtain rfl := Option.some.inj present
      rw [keeps, orderly.named id reference found, same]
    · exact orderly.named other changed present

theorem exists_get?_iff (orderly : memo.Orderly) :
    (∃ reference, memo.get? id = some reference) ↔ id.index < memo.size := by
  rw [orderly.size]
  exact ⟨fun ⟨_, found⟩ => index_lt_of_get? found, orderly.dense id⟩

end Orderly

end Memo

/-- Some end of the computation, be it a return or a failure, leaves this state. -/
def Leaves {ε S α : Type} (computation : EStateM ε S α) (state after : S) : Prop :=
  (∃ result, computation state = .ok result after) ∨ ∃ error, computation state = .error error after

theorem Ends.leaves {ε S α : Type} {computation : EStateM ε S α} {state after : S} {holds : S → Prop}
    (ends : Ends computation state (fun _ after => holds after) fun _ after => holds after)
    (leaves : Leaves computation state after) : holds after := by
  obtain ⟨result, found⟩ | ⟨error, found⟩ := leaves
  · exact ends.at_ok found
  · exact ends.at_error found

/-- A call by which a client changes a memo. -/
inductive MemoCall (ε : Type) where
  | insert (stage : PlannerStage) (exploratory finals : List (Member ε))
  | insertExpression (expression : ε)
  | addExploratoryMember (id : ReferenceId) (member : Member ε)
  | addFinalMember (id : ReferenceId) (member : Member ε)
  | setPlannerStage (id : ReferenceId) (stage : PlannerStage)
  | renameCorrelations (names : Renaming) (simplifyValues : Bool) (ids : List ReferenceId)

namespace MemoCall

/-- The members that the client passes. -/
def members : MemoCall ε → List (Member ε)
  | insert _ exploratory finals => exploratory ++ finals
  | addExploratoryMember _ member | addFinalMember _ member => [member]
  | insertExpression _ | setPlannerStage _ _ | renameCorrelations _ _ _ => []

def perform [RelationalExpression ε] : MemoCall ε → MemoM ε Unit
  | insert stage exploratory finals => do
    let _ ← MemoM.insert stage exploratory finals
  | insertExpression expression => do
    let _ ← MemoM.insertExpression expression
  | addExploratoryMember id member => MemoM.change fun memo => memo.addExploratoryMember id member
  | addFinalMember id member => MemoM.change fun memo => memo.addFinalMember id member
  | setPlannerStage id stage => MemoM.change fun memo => memo.setPlannerStage id stage
  | renameCorrelations names simplifyValues ids => do
    let _ ← QueryOptimizer.renameCorrelations names simplifyValues ids

end MemoCall

/-- What any sequence of calls on an empty memo leads to. In between, clients make members of their own: they
draw identities, and pass members on that are named by them. -/
inductive MemoState.Reached [RelationalExpression ε] : MemoState ε → Prop where
  | start (supply : Supply) (events : List (RenamingEvent ε)) : Reached { supply, events }
  | prepare {state : MemoState ε} (supply : Supply) : Reached state →
      state.supply.allocated ≤ supply.allocated → Reached { state with supply }
  | call {state after : MemoState ε} (call : MemoCall ε) : Reached state →
      (∀ member ∈ call.members, member.id.index < state.supply.allocated) →
      Leaves call.perform state after → Reached after

/-- What all calls keep: the references are in order, and the members known. -/
structure MemoState.InOrder (state : MemoState ε) : Prop where
  orderly : state.memo.Orderly
  allocated : state.Allocated

theorem MemoM.change_ends (edit : Memo ε → Except MemoError (Memo ε)) (state : MemoState ε) :
    Ends (MemoM.change edit) state (fun _ after => edit state.memo = .ok after.memo ∧ after.supply = state.supply)
      (fun _ after => after = state) := by
  show Ends (MemoM.ofExcept (edit state.memo) >>= fun memo => modify fun state => { state with memo }) state _ _
  cases edited : edit state.memo with
  | ok memo => exact .bind (.pure (.of_eq rfl ⟨rfl, rfl⟩))
  | error => exact rfl

namespace MemoState.InOrder
variable {state after : MemoState ε}

theorem insert (inOrder : state.InOrder) (stage : PlannerStage) {exploratory finals : List (Member ε)}
    (bounds : ∀ member ∈ exploratory ++ finals, member.id.index < state.supply.allocated) :
    InOrder { state with memo := (state.memo.insert stage exploratory finals).2 } where
  orderly := inOrder.orderly.insert stage exploratory finals
  allocated := inOrder.allocated.insert rfl (Nat.le_refl _) bounds

theorem update (inOrder : state.InOrder) {change : Reference ε → Reference ε} {id : ReferenceId}
    (kept : Reference.KeptBy state.supply.allocated change)
    (updated : state.memo.update id change = .ok after.memo) (same : after.supply = state.supply) : after.InOrder := by
  refine ⟨inOrder.orderly.update updated kept.id, ?_⟩
  obtain ⟨reference, found, -, -, known⟩ := Memo.update_ok updated
  intro other changed present
  rw [known] at present
  rw [same]
  split at present
  · obtain rfl := Option.some.inj present
    have earlier := Reference.members_below_iff.mp (inOrder.allocated id reference found)
    exact Reference.members_below_iff.mpr (kept.members reference earlier)
  · exact inOrder.allocated other changed present

theorem change (inOrder : state.InOrder) {change : Reference ε → Reference ε}
    (kept : Reference.KeptBy state.supply.allocated change) (id : ReferenceId) :
    Ends (MemoM.change fun memo => memo.update id change) state (fun _ after => after.InOrder)
      (fun _ after => after.InOrder) := by
  refine (MemoM.change_ends _ state).mono ?_ ?_
  · exact fun _ after outcome => inOrder.update kept outcome.1 outcome.2
  · intro _ after same
    rwa [same]

variable [RelationalExpression ε] [DrawingExpression ε]

/-- However renaming ends, it has done no more to the memo than insert references. -/
theorem rename (inOrder : state.InOrder) (names : Renaming) (simplifies : Bool) (ids : List ReferenceId) :
    Ends (renameCorrelations names simplifies ids) state
      (fun _ after => state.memo.Inserted after.memo ∧ after.InOrder)
      (fun _ after => state.memo.Inserted after.memo ∧ after.InOrder) := by
  have ends := renameCorrelations_ends names simplifies ids state
  by_cases grounded : state.memo.Grounded ids
  · refine (ends.and (renameCorrelations_visits names simplifies grounded inOrder.allocated)).mono ?_ ?_
    · intro results after outcome
      obtain ⟨⟨-, inserted⟩, order, renamed, -, -, visited, -⟩ := outcome
      exact ⟨inserted, inOrder.orderly.inserted inserted, visited.allocated⟩
    · intro error after outcome
      obtain ⟨⟨-, rfl⟩ | ⟨-, inserted, -⟩, allocated⟩ := outcome
      · exact ⟨.refl, inOrder⟩
      · exact ⟨inserted, inOrder.orderly.inserted inserted, allocated⟩
  · refine ends.mono (fun _ _ outcome => absurd outcome.1 grounded) ?_
    intro error after outcome
    obtain ⟨-, rfl⟩ | ⟨sound, -⟩ := outcome
    · exact ⟨.refl, inOrder⟩
    · exact absurd sound grounded

theorem perform (inOrder : state.InOrder) (call : MemoCall ε)
    (bounds : ∀ member ∈ call.members, member.id.index < state.supply.allocated) :
    Ends call.perform state (fun _ after => after.InOrder) (fun _ after => after.InOrder) := by
  cases call with
  | insert stage exploratory finals => exact .bind (.of_eq rfl (.pure (inOrder.insert stage bounds)))
  | insertExpression expression =>
    have drawn : InOrder { state with supply := state.supply.draw.2 } :=
      ⟨inOrder.orderly, inOrder.allocated.mono rfl (Nat.le_succ _)⟩
    refine .bind (.of_eq rfl (.pure (drawn.insert .initial ?_)))
    intro member present
    obtain rfl := List.mem_singleton.mp present
    exact Nat.lt_succ_self _
  | addExploratoryMember id member =>
    exact inOrder.change (.addExploratory (bounds member (List.mem_singleton_self _))) id
  | addFinalMember id member => exact inOrder.change (.addFinal (bounds member (List.mem_singleton_self _))) id
  | setPlannerStage id stage => exact inOrder.change (.setStage stage) id
  | renameCorrelations names simplifyValues ids =>
    exact .bind ((inOrder.rename names simplifyValues ids).mono (fun _ _ outcome => .pure outcome.2)
      fun _ _ outcome => outcome.2)

end MemoState.InOrder

theorem MemoState.Reached.inOrder [RelationalExpression ε] [DrawingExpression ε] {state : MemoState ε}
    (reached : state.Reached) : state.InOrder := by
  induction reached with
  | start supply events => exact ⟨.empty, fun id reference found => by rw [Memo.get?_empty] at found; cases found⟩
  | prepare supply _ more ih => exact ⟨ih.orderly, ih.allocated.mono rfl more⟩
  | call call _ bounds leaves ih => exact (ih.perform call bounds).leaves leaves

end QueryOptimizer
