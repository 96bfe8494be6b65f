import QueryOptimizer.Proofs.Memo.Outcome
import QueryOptimizer.Proofs.Relation

/-!
When a graph of relational expressions cannot be renamed. Each of its members can be, so the references
alone decide.
-/
namespace QueryOptimizer

/-- Renaming fails exactly on broken graphs, and then changes nothing. It names a reference that can be
reached and is missing if there is one, and reports a cycle if there is one and nothing is missing. What a
reference is correlated to is not known in the same cases. -/
theorem renameCorrelations_fails_iff_broken (names : Renaming) (simplifies : Bool) (ids : List ReferenceId)
    (state : MemoState Relation) :
    ((∃ id after, renameCorrelations names simplifies ids state = .error (.unknownReference id) after) ↔
      ∃ id, state.memo.Reaches ids id ∧ state.memo.get? id = none) ∧
    ((∃ after, renameCorrelations names simplifies ids state = .error .cyclicGraph after) ↔
      (∀ id, state.memo.Reaches ids id → ∃ reference, state.memo.get? id = some reference) ∧
        ∃ id, state.memo.Reaches ids id ∧ Relation.TransGen state.memo.RangesOver id id) ∧
    ((∃ results after, renameCorrelations names simplifies ids state = .ok results after) ↔
      (∀ id, state.memo.Reaches ids id → ∃ reference, state.memo.get? id = some reference) ∧
        ∀ id, state.memo.Reaches ids id → ¬ Relation.TransGen state.memo.RangesOver id id) ∧
    (∀ error after, renameCorrelations names simplifies ids state = .error error after →
      after = state ∧ (error = .cyclicGraph ∨
        ∃ id, error = .unknownReference id ∧ state.memo.Reaches ids id ∧ state.memo.get? id = none)) ∧
    ∀ id error, state.memo.correlatedTo id = .error error ↔
      renameCorrelations names simplifies [id] state = .error error state := by
  have ends := renameCorrelations_decides names simplifies ids state
  refine ⟨?missing, ?cyclic, ?returns, ?fails, ?correlated⟩
  case missing =>
    constructor
    · intro failed
      obtain ⟨id, after, ran⟩ := failed
      exact (ends.at_error ran).1.missing_iff.mp ⟨id, rfl⟩
    · intro missing
      obtain ⟨error, ran, broken⟩ := renameCorrelations_breaks names simplifies
        fun grounded : state.memo.Grounded ids => Memo.complete_iff.mp grounded.complete missing
      obtain ⟨id, rfl⟩ := broken.missing_iff.mpr missing
      exact ⟨id, state, ran⟩
  case cyclic =>
    constructor
    · intro failed
      obtain ⟨after, ran⟩ := failed
      exact (ends.at_error ran).1.cyclic_iff.mp rfl
    · intro cyclic
      have ⟨_, id, reached, cycle⟩ := cyclic
      obtain ⟨error, ran, broken⟩ := renameCorrelations_breaks names simplifies
        fun grounded : state.memo.Grounded ids => grounded.acyclic id reached cycle
      obtain rfl := broken.cyclic_iff.mpr cyclic
      exact ⟨state, ran⟩
  case returns =>
    constructor
    · intro returned
      obtain ⟨results, after, ran⟩ := returned
      exact ⟨(ends.at_ok ran).complete, (ends.at_ok ran).acyclic⟩
    · intro sound
      have grounded : state.memo.Grounded ids := ⟨sound.1, sound.2⟩
      cases ran : renameCorrelations names simplifies ids state with
      | ok results after => exact ⟨results, after, rfl⟩
      | error error after => exact absurd (ends.at_error ran).1 (grounded.not_broken error)
  case fails =>
    intro error after ran
    obtain ⟨broken, same⟩ := ends.at_error ran
    refine ⟨same, ?_⟩
    cases broken with
    | missing reached absent => exact .inr ⟨_, rfl, reached, absent⟩
    | cyclic => exact .inl rfl
  case correlated =>
    intro id error
    rw [Memo.correlatedTo_eq_error_iff, renameCorrelations_eq_error_iff, and_iff_left rfl]

end QueryOptimizer
