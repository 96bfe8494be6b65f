import QueryOptimizer.Proofs.Memo.Exposure
import QueryOptimizer.Proofs.Relation

/-!
What renaming leaves behind in a memo. It replaces every reference that is correlated to a source, also one
whose parents all bind that source, although nothing that is returned will lead to what takes its place.
-/
namespace QueryOptimizer

/-- Every reference that renaming adds takes the place of one that is correlated to a source. It can be reached
from what is returned if and only if that one is exposed: reached from the given references through references
that are correlated to a source. So nothing is added in vain if and only if all those that can be reached and are
correlated to a source are exposed, and the memo stays as it is if and only if there are none. -/
theorem renameCorrelations_uses_what_is_exposed {ε : Type} [RelationalExpression ε] [LawfulRelationalExpression ε]
    (names : Renaming) (simplifies : Bool) (ids : List ReferenceId) (state : MemoState ε)
    (grounded : state.memo.Grounded ids) (allocated : state.Allocated) :
    ∃ becomes after, renameCorrelations names simplifies ids state = .ok (ids.map becomes) after ∧
      (∀ new, state.memo.get? new = none → (∃ reference, after.memo.get? new = some reference) →
        ∃ id, state.memo.Reaches ids id ∧ state.memo.CorrelatedToSource names id ∧ new = becomes id ∧
          (after.memo.Reaches (ids.map becomes) new ↔ state.memo.Exposed names ids id)) ∧
      ((∀ new, state.memo.get? new = none → (∃ reference, after.memo.get? new = some reference) →
          after.memo.Reaches (ids.map becomes) new) ↔
        ∀ id, state.memo.Reaches ids id → state.memo.CorrelatedToSource names id → state.memo.Exposed names ids id) ∧
      (after.memo = state.memo ↔
        ∀ id, state.memo.Reaches ids id → ¬ state.memo.CorrelatedToSource names id) := by
  obtain ⟨results, after, ran, -⟩ := (renameCorrelations_returns names simplifies grounded allocated).returned
  obtain ⟨order, renamed, distinct, elements, visited, rfl⟩ :=
    (renameCorrelations_visits names simplifies grounded allocated).at_ok ran
  have added {new : ReferenceId} (absent : state.memo.get? new = none)
      (present : ∃ reference, after.memo.get? new = some reference) :
      ∃ id, state.memo.Reaches ids id ∧ renamed.becomes id ≠ id ∧ new = renamed.becomes id := by
    obtain ⟨id, listed, changed, same⟩ := (visited.added_iff distinct absent).mp present
    exact ⟨id, (elements id).mp listed, changed, same⟩
  refine ⟨renamed.becomes, after, ran, ?_, ⟨?_, ?_⟩, ⟨?_, ?_⟩⟩
  · intro new absent present
    obtain ⟨id, reached, changed, rfl⟩ := added absent present
    exact ⟨id, reached, (visited.becomes_ne_iff elements grounded reached).mp changed, rfl,
      visited.reaches_becomes_iff elements grounded reached changed⟩
  · intro used id reached correlated
    have changed := (visited.becomes_ne_iff elements grounded reached).mpr correlated
    have listed := (elements id).mpr reached
    exact (visited.reaches_becomes_iff elements grounded reached changed).mp
      (used _ (visited.becomes_new listed changed) (visited.becomes_known listed))
  · intro exposed new absent present
    obtain ⟨id, reached, changed, rfl⟩ := added absent present
    exact (visited.reaches_becomes_iff elements grounded reached changed).mpr
      (exposed id reached ((visited.becomes_ne_iff elements grounded reached).mp changed))
  · intro same id reached correlated
    have changed := (visited.becomes_ne_iff elements grounded reached).mpr correlated
    have listed := (elements id).mpr reached
    obtain ⟨reference, known⟩ := visited.becomes_known listed
    rw [same, visited.becomes_new listed changed] at known
    cases known
  · intro none
    have inserted := ((renameCorrelations_ends names simplifies ids state).at_ok ran).2
    have unchanged : order.countP (fun id => renamed.becomes id ≠ id) = 0 := by
      rw [List.countP_eq_zero]
      intro id listed changed
      have reached := (elements id).mp listed
      exact none id reached ((visited.becomes_ne_iff elements grounded reached).mp (of_decide_eq_true changed))
    exact inserted.eq_of_size_le (Nat.le_of_eq (by rw [visited.size, unchanged, Nat.add_zero]))

/-- A selection over the comparison of columns of `q` and `p` that binds `p`. -/
def enclosure : Relation :=
  .select [⟨.forEach, ⟨"p"⟩, ⟨0⟩⟩, ⟨.forEach, ⟨"s"⟩, ⟨1⟩⟩] [] []

/-- A memo of a table, the comparison over it and the selection that binds what the comparison is correlated to. -/
def enclosedComparison : MemoState Relation where
  memo := (outerComparison.memo.insert .initial [⟨⟨5⟩, enclosure⟩] []).2
  supply := ⟨6⟩

/-- The reference of the enclosing selection. -/
def enclosureReference : Reference Relation where
  id := ⟨2⟩
  stage := .initial
  exploratory := [⟨⟨5⟩, enclosure⟩]
  finals := []

theorem enclosedComparison_cases {id : ReferenceId} {reference : Reference Relation}
    (found : enclosedComparison.memo.get? id = some reference) :
    id = ⟨0⟩ ∧ reference = tableReference ∨ id = ⟨1⟩ ∧ reference = comparisonReference ∨
      id = ⟨2⟩ ∧ reference = enclosureReference := by
  unfold enclosedComparison at found
  rw [Memo.get?_insert] at found
  split at found
  · rename_i last
    exact .inr (.inr ⟨last, (Option.some.inj found).symm⟩)
  · exact (outerComparison_cases found).imp_right .inl

theorem enclosedComparison_enclosure : enclosedComparison.memo.get? ⟨2⟩ = some enclosureReference :=
  Memo.get?_insert_new _ _ _

theorem enclosedComparison_comparison : enclosedComparison.memo.get? ⟨1⟩ = some comparisonReference :=
  Memo.get?_insert_old outerComparison_comparison

theorem enclosedComparison_table : enclosedComparison.memo.get? ⟨0⟩ = some tableReference :=
  Memo.get?_insert_old outerComparison_table

theorem enclosedComparison_grounded {ids : List ReferenceId} (given : ∀ id ∈ ids, id = ⟨2⟩ ∨ id = ⟨1⟩) :
    enclosedComparison.memo.Grounded ids := by
  refine .of_layered ?_ ?_
  · intro id member
    rcases given id member with rfl | rfl
    · exact ⟨_, enclosedComparison_enclosure⟩
    · exact ⟨_, enclosedComparison_comparison⟩
  · rintro id input ⟨reference, found, member⟩
    obtain ⟨rfl, rfl⟩ | ⟨rfl, rfl⟩ | ⟨rfl, rfl⟩ := enclosedComparison_cases found
    · cases member
    · obtain rfl := List.mem_singleton.mp member
      exact ⟨by decide, _, enclosedComparison_table⟩
    · rcases List.mem_pair.mp member with rfl | rfl
      · exact ⟨by decide, _, enclosedComparison_table⟩
      · exact ⟨by decide, _, enclosedComparison_comparison⟩

theorem enclosedComparison_allocated : enclosedComparison.Allocated := by
  intro id reference found member present
  obtain ⟨rfl, rfl⟩ | ⟨rfl, rfl⟩ | ⟨rfl, rfl⟩ := enclosedComparison_cases found
  all_goals
    obtain rfl := List.mem_singleton.mp present
    decide

/-- Whether some of the aliases that a reference is correlated to is renamed tells if it is correlated to a
source. -/
theorem Memo.correlatedToSource_iff {ε : Type} [RelationalExpression ε] {memo : Memo ε} {names : Renaming}
    {id : ReferenceId} {renamed : Bool} (answer : (memo.correlatedTo id).map names.renamesAny = .ok renamed) :
    memo.CorrelatedToSource names id ↔ renamed = true := by
  unfold CorrelatedToSource
  cases found : memo.correlatedTo id with
  | error error =>
    rw [found] at answer
    cases answer
  | ok correlated =>
    rw [found] at answer
    cases answer
    simp

/-- The renaming of the outer alias. -/
def outerRenamed : Renaming :=
  Renaming.empty.insert ⟨"p"⟩ ⟨"u"⟩

/-- The comparison alone is correlated to the outer alias. -/
theorem enclosedComparison_correlated {id : ReferenceId} {reference : Reference Relation}
    (found : enclosedComparison.memo.get? id = some reference) :
    enclosedComparison.memo.CorrelatedToSource outerRenamed id ↔ id = ⟨1⟩ := by
  obtain ⟨rfl, -⟩ | ⟨rfl, -⟩ | ⟨rfl, -⟩ := enclosedComparison_cases found
  · have answer : (enclosedComparison.memo.correlatedTo ⟨0⟩).map outerRenamed.renamesAny = .ok false := by cbv
    exact (Memo.correlatedToSource_iff answer).trans (by decide)
  · have answer : (enclosedComparison.memo.correlatedTo ⟨1⟩).map outerRenamed.renamesAny = .ok true := by cbv
    exact (Memo.correlatedToSource_iff answer).trans (by decide)
  · have answer : (enclosedComparison.memo.correlatedTo ⟨2⟩).map outerRenamed.renamesAny = .ok false := by cbv
    exact (Memo.correlatedToSource_iff answer).trans (by decide)

/-- Given the enclosing selection, renaming returns it, and adds a reference that cannot be reached from it. -/
theorem renameCorrelations_leaves_garbage :
    enclosedComparison.memo.Grounded [⟨2⟩] ∧ enclosedComparison.Allocated ∧
      ∃ after new, renameCorrelations outerRenamed false [⟨2⟩] enclosedComparison = .ok [⟨2⟩] after ∧
        enclosedComparison.memo.get? new = none ∧ (∃ reference, after.memo.get? new = some reference) ∧
        ¬ after.memo.Reaches [⟨2⟩] new ∧ after.memo ≠ enclosedComparison.memo := by
  have grounded : enclosedComparison.memo.Grounded [⟨2⟩] :=
    enclosedComparison_grounded fun id member => .inl (List.mem_singleton.mp member)
  refine ⟨grounded, enclosedComparison_allocated, ?_⟩
  obtain ⟨results, after, ran, order, renamed, elements, visited, rfl⟩ :=
    (renameCorrelations_returns outerRenamed false grounded enclosedComparison_allocated).returned
  have given : enclosedComparison.memo.Reaches [⟨2⟩] ⟨2⟩ := .of_mem (List.mem_singleton_self _)
  have below : enclosedComparison.memo.Reaches [⟨2⟩] ⟨1⟩ :=
    given.tail ((Memo.RangesOver.mem_inputs enclosedComparison_enclosure).mpr (by decide))
  have stays : renamed.becomes ⟨2⟩ = ⟨2⟩ := by
    by_contra changed
    have correlated := (visited.becomes_ne_iff elements grounded given).mp changed
    exact absurd ((enclosedComparison_correlated enclosedComparison_enclosure).mp correlated) (by decide)
  have changed : renamed.becomes ⟨1⟩ ≠ ⟨1⟩ :=
    (visited.becomes_ne_iff elements grounded below).mpr
      ((enclosedComparison_correlated enclosedComparison_comparison).mpr rfl)
  have absent := visited.becomes_new ((elements ⟨1⟩).mpr below) changed
  obtain ⟨reference, present⟩ := visited.becomes_known ((elements ⟨1⟩).mpr below)
  have hidden {id : ReferenceId} : ¬ enclosedComparison.memo.Exposed outerRenamed [⟨2⟩] id := by
    intro exposed
    induction exposed with
    | given member correlated =>
      obtain rfl := List.mem_singleton.mp member
      exact absurd ((enclosedComparison_correlated enclosedComparison_enclosure).mp correlated) (by decide)
    | input _ _ _ impossible => exact impossible
  have unreached := mt (visited.reaches_becomes_iff elements grounded below changed).mp hidden
  rw [List.map_singleton, stays] at ran unreached
  refine ⟨after, renamed.becomes ⟨1⟩, ran, absent, ⟨reference, present⟩, unreached, fun same => ?_⟩
  rw [same, absent] at present
  cases present

/-- Given the comparison as well, renaming adds nothing in vain. -/
theorem renameCorrelations_uses_what_is_exposed_comparison :
    enclosedComparison.memo.Grounded [⟨2⟩, ⟨1⟩] ∧ enclosedComparison.Allocated ∧
      ∃ (becomes : ReferenceId → ReferenceId) (after : MemoState Relation),
        renameCorrelations outerRenamed false [⟨2⟩, ⟨1⟩] enclosedComparison =
          .ok [becomes ⟨2⟩, becomes ⟨1⟩] after ∧
        after.memo ≠ enclosedComparison.memo ∧
        ∀ new, enclosedComparison.memo.get? new = none → (∃ reference, after.memo.get? new = some reference) →
          after.memo.Reaches [becomes ⟨2⟩, becomes ⟨1⟩] new := by
  have grounded : enclosedComparison.memo.Grounded [⟨2⟩, ⟨1⟩] :=
    enclosedComparison_grounded fun id member => List.mem_pair.mp member
  have given : enclosedComparison.memo.Reaches [⟨2⟩, ⟨1⟩] ⟨1⟩ := .of_mem (by simp)
  have correlated := (enclosedComparison_correlated enclosedComparison_comparison).mpr rfl
  obtain ⟨becomes, after, ran, -, used, unchanged⟩ := renameCorrelations_uses_what_is_exposed outerRenamed false
    [⟨2⟩, ⟨1⟩] enclosedComparison grounded enclosedComparison_allocated
  refine ⟨grounded, enclosedComparison_allocated, becomes, after, ran, ?_, used.mpr ?_⟩
  · exact fun same => unchanged.mp same ⟨1⟩ given correlated
  · intro id reached source
    obtain ⟨reference, found⟩ := grounded.complete id reached
    obtain rfl := (enclosedComparison_correlated found).mp source
    exact .given (by simp) source

end QueryOptimizer
