import QueryOptimizer.Memo.Labeled
import QueryOptimizer.Proofs.Memo.Calls
import QueryOptimizer.Proofs.Memo.Scoping

/-!
Renaming does not disturb what is in a memo: whether it returns or fails, the references that were there
stay what they are, and on return there is one more for each that is correlated to a source.
-/
namespace QueryOptimizer
variable {ε : Type} [RelationalExpression ε] {names : Renaming} {simplifies : Bool} {renamed : Renamed}
variable {start state : MemoState ε} {order ids : List ReferenceId} {id : ReferenceId}

/-- The memo has grown by one reference for each that is correlated to a source. -/
theorem Visited.grows (visited : Visited names simplifies start order renamed state) (distinct : order.Nodup)
    (elements : ∀ id, id ∈ order ↔ start.memo.Reaches ids id) (grounded : start.memo.Grounded ids) :
    ∃ affected : List ReferenceId, affected.Nodup ∧
      (∀ id, id ∈ affected ↔ start.memo.Reaches ids id ∧ ∃ correlated,
        start.memo.correlatedTo id = .ok correlated ∧ names.renamesAny correlated = true) ∧
      state.memo.size = start.memo.size + affected.length := by
  refine ⟨order.filter fun id => renamed.becomes id ≠ id, distinct.filter _, ?_, ?_⟩
  · intro id
    rw [List.mem_filter, elements, decide_eq_true_iff]
    refine and_congr_right fun reached => ?_
    rw [Memo.correlated_to_source_iff (grounded.of_reaches reached), Ne,
      (visited.each id ((elements id).mpr reached)).eq_iff]
  · rw [visited.size, List.countP_eq_length_filter]

/-- Whatever calls have led to a memo, its references are named by the numbers below its size. Renaming
leaves all of them as they are, even if it fails with some work done, and names new references by higher
numbers. If it returns, it has added one for each reference that can be reached from the given ones and is
correlated to a source. -/
theorem renameCorrelations_keeps_reached_memo [DrawingExpression ε] (state : MemoState ε) (reached : state.Reached) :
    (∀ id, (∃ reference, state.memo.get? id = some reference) ↔ id.index < state.memo.size) ∧
    (∀ id reference, state.memo.get? id = some reference → reference.id = id) ∧
    ∀ names simplifies ids after, Leaves (renameCorrelations names simplifies ids) state after →
      (∀ id reference, state.memo.get? id = some reference → after.memo.get? id = some reference) ∧
      (∀ id reference, after.memo.get? id = some reference → state.memo.get? id = none →
        state.memo.size ≤ id.index) ∧
      ∀ results, renameCorrelations names simplifies ids state = .ok results after →
        ∃ affected : List ReferenceId, affected.Nodup ∧
          (∀ id, id ∈ affected ↔ state.memo.Reaches ids id ∧ ∃ correlated,
            state.memo.correlatedTo id = .ok correlated ∧ names.renamesAny correlated = true) ∧
          after.memo.size = state.memo.size + affected.length := by
  have inOrder := reached.inOrder
  refine ⟨fun id => inOrder.orderly.exists_get?_iff, inOrder.orderly.named, ?_⟩
  intro names simplifies ids after leaves
  have inserted := ((inOrder.rename names simplifies ids).leaves leaves).1
  refine ⟨inserted.grown, ?_, ?_⟩
  · intro id reference _ absent
    rw [← Nat.not_lt, ← inOrder.orderly.exists_get?_iff, absent]
    simp
  · intro results ran
    have grounded := ((renameCorrelations_ends names simplifies ids state).at_ok ran).1
    obtain ⟨order, renamed, distinct, elements, visited, -⟩ :=
      (renameCorrelations_visits names simplifies grounded inOrder.allocated).at_ok ran
    exact visited.grows distinct elements grounded

/-- Renaming a labeled expression draws no identities. -/
instance : DrawingExpression LabeledExpression where
  rename_draws names simplifyValues inputs expression supply _ := by
    show Ends (LabeledExpression.rename names simplifyValues inputs expression) supply _ _
    unfold LabeledExpression.rename
    split
    · exact Nat.le_refl _
    · exact Nat.le_refl _

/-- An expression that refers to `p`. -/
def innerLabel : LabeledExpression := { label := "inner", correlated := .of ⟨"p"⟩, quantifiers := [] }

/-- An expression over it that cannot be renamed. -/
def outerLabel : LabeledExpression where
  label := "outer"
  correlated := ∅
  quantifiers := [⟨.forEach, ⟨"q"⟩, ⟨0⟩⟩]
  obstacle? := some "not supported"

/-- A memo of both expressions. -/
def obstructed : MemoState LabeledExpression where
  memo := ((Memo.empty.insert .initial [⟨⟨0⟩, innerLabel⟩] []).2.insert .initial [⟨⟨1⟩, outerLabel⟩] []).2
  supply := ⟨2⟩

theorem obstructed_reached : obstructed.Reached := by
  have inner : MemoState.Reached
      { memo := (Memo.empty.insert .initial [⟨⟨0⟩, innerLabel⟩] []).2, supply := ⟨1⟩, events := [] } :=
    .call (.insertExpression innerLabel) (.start {} []) (fun _ absent => nomatch absent) (.inl ⟨(), rfl⟩)
  exact .call (.insertExpression outerLabel) inner (fun _ absent => nomatch absent) (.inl ⟨(), rfl⟩)

/-- Renaming `p` replaces the inner reference, and then fails at the outer one. -/
theorem renameCorrelations_keeps_obstructed :
    obstructed.Reached ∧ ∃ error after,
      renameCorrelations (Renaming.empty.insert ⟨"p"⟩ ⟨"u"⟩) false [⟨1⟩] obstructed = .error error after ∧
      after.memo.size = 3 ∧
      (∀ id reference, obstructed.memo.get? id = some reference → after.memo.get? id = some reference) ∧
      ∀ id reference, after.memo.get? id = some reference → obstructed.memo.get? id = none →
        obstructed.memo.size ≤ id.index := by
  have stopped : (match renameCorrelations (Renaming.empty.insert ⟨"p"⟩ ⟨"u"⟩) false [⟨1⟩] obstructed with
      | .ok _ _ => 0
      | .error _ after => after.memo.size) = 3 := by cbv
  refine ⟨obstructed_reached, ?_⟩
  cases ran : renameCorrelations (Renaming.empty.insert ⟨"p"⟩ ⟨"u"⟩) false [⟨1⟩] obstructed with
  | ok results after =>
    rw [ran] at stopped
    cases stopped
  | error error after =>
    rw [ran] at stopped
    obtain ⟨kept, above, -⟩ :=
      (renameCorrelations_keeps_reached_memo obstructed obstructed_reached).2.2 _ _ _ after (.inr ⟨error, ran⟩)
    exact ⟨error, after, rfl, stopped, kept, above⟩

end QueryOptimizer
