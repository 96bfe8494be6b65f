import QueryOptimizer.Proofs.Memo.Renaming

/-!
How renaming a graph of references can end, whatever the expressions and their identities are: on a broken
graph it fails at once and changes nothing; on any other it visits reference after reference, does no more
to the memo than insert new ones, and stops early only where an expression cannot be renamed.
-/
namespace QueryOptimizer
variable {ε : Type} [RelationalExpression ε]

/-- Some expression cannot be renamed over as many inputs as it has. -/
def CannotRename (ε : Type) [RelationalExpression ε] (names : Renaming) (simplifies : Bool)
    (interruption : Interruption) : Prop :=
  ∃ (expression : ε) (inputs : List Quantifier) (before after : Supply),
    inputs.length = (RelationalExpression.quantifiers expression).length ∧
      RelationalExpression.rename names simplifies inputs expression before = .error interruption after

/-- The work on a memo has stopped at an expression that cannot be renamed. -/
def StoppedEarly (names : Renaming) (simplifies : Bool) (memo : Memo ε) (error : MemoError)
    (after : MemoState ε) : Prop :=
  memo.Inserted after.memo ∧ ∃ interruption, error = .interrupted interruption ∧
    CannotRename ε names simplifies interruption

variable {names : Renaming} {simplifies : Bool} {renamed : Renamed}

theorem StoppedEarly.after {earlier memo : Memo ε} {error : MemoError} {after : MemoState ε}
    (inserted : earlier.Inserted memo) (stopped : StoppedEarly names simplifies memo error after) :
    StoppedEarly names simplifies earlier error after :=
  ⟨inserted.trans stopped.1, stopped.2⟩

theorem renameMember_stops {reference : ReferenceId} (member : Member ε)
    (visited : ∀ quantifier ∈ RelationalExpression.quantifiers member.expression,
      ∃ reference, renamed[quantifier.rangesOver]? = some reference) (state : MemoState ε) :
    Ends (renameMember names simplifies renamed reference member) state (fun _ after => after.memo = state.memo)
      (StoppedEarly names simplifies state.memo) := by
  refine (renameMember_cases member visited state).mono (fun _ _ outcome => outcome.1) ?_
  intro error after outcome
  obtain ⟨same, interruption, rfl, failed⟩ := outcome
  exact ⟨same ▸ .refl, interruption, rfl, member.expression, _, _, _, List.length_map _, failed⟩

theorem renameReference_inserts {id : ReferenceId} {reference : Reference ε} (state : MemoState ε)
    (found : state.memo.get? id = some reference)
    (visited : ∀ member ∈ reference.members,
      ∀ quantifier ∈ RelationalExpression.quantifiers member.expression,
        ∃ reference, renamed[quantifier.rangesOver]? = some reference) :
    Ends (renameReference names simplifies renamed id) state (fun _ after => state.memo.Inserted after.memo)
      (StoppedEarly names simplifies state.memo) := by
  dsimp only [renameReference]
  refine .bind (.of_eq rfl ?_)
  rw [Memo.find_of_get? found]
  have members : Ends (reference.members.mapM fun member => do
        return (member, ← renameMember names simplifies renamed id member)) state
      (fun pairs after => after.memo = state.memo ∧ pairs.length = reference.members.length ∧ ∀ pair ∈ pairs, True)
      (StoppedEarly names simplifies state.memo) := by
    refine Ends.mapM_forall reference.members ?_ rfl
    intro member present between same
    refine .bind ((renameMember_stops member (visited member present) between).mono ?_ ?_)
    · exact fun _ after kept => .pure ⟨kept.trans same, trivial⟩
    · exact fun _ _ stopped => same ▸ stopped
  refine .bind (.pure (.bind (members.imp ?_)))
  intro pairs after outcome
  have same : after.memo = state.memo := outcome.1
  split
  · exact .pure (same ▸ .refl)
  · exact .of_eq rfl (same ▸ .insert _ _ _ .refl)

/-- Visiting one more reference whose free aliases are known, and whose inputs were visited. -/
theorem renameNext_inserts {start state : MemoState ε} {before : List ReferenceId} {id : ReferenceId}
    {correlations : Correlations} {correlated : AliasSet} {reference : Reference ε}
    (inserted : start.memo.Inserted state.memo) (visited : ∀ id ∈ before, ∃ new, renamed[id]? = some new)
    (inputs : ∀ input, start.memo.RangesOver id input → input ∈ before)
    (found : start.memo.get? id = some reference) (listed : correlations[id]? = some correlated) :
    Ends (renameNext names simplifies correlations renamed id) state
      (fun later after => start.memo.Inserted after.memo ∧ ∀ other ∈ before ++ [id], ∃ new, later[other]? = some new)
      (StoppedEarly names simplifies start.memo) := by
  have joined (new : ReferenceId) :
      ∀ other ∈ before ++ [id], ∃ known, (renamed.insert id new)[other]? = some known := by
    intro other member
    rw [Std.ExtTreeMap.getElem?_insert]
    split
    · exact ⟨new, rfl⟩
    · rename_i different
      rcases List.mem_append.mp member with old | last
      · exact visited other old
      · exact absurd (Std.LawfulEqOrd.compare_eq_iff_eq.mpr (List.mem_singleton.mp last).symm) different
  dsimp only [renameNext]
  rw [listed]
  dsimp only
  split
  · refine .bind ((renameReference_inserts state (inserted.grown id reference found) ?_).mono ?_ ?_)
    · intro member present quantifier input
      exact visited _ (inputs _ (.of_quantifier found present input))
    · exact fun new after further => .pure ⟨inserted.trans further, joined new⟩
    · exact fun _ _ stopped => stopped.after inserted
  · exact .pure ⟨inserted, joined id⟩

theorem renameInOrder_inserts {start state : MemoState ε} {before order : List ReferenceId}
    {correlations : Correlations} (inserted : start.memo.Inserted state.memo)
    (visited : ∀ id ∈ before, ∃ new, renamed[id]? = some new)
    (arranged : DependencyOrder.Arranged start.memo.RangesOver before order)
    (complete : ∀ id ∈ order, ∃ reference, start.memo.get? id = some reference)
    (recorded : Recorded start.memo order correlations) :
    Ends (order.foldlM (renameNext names simplifies correlations) renamed) state
      (fun later after => start.memo.Inserted after.memo ∧ ∀ id ∈ before ++ order, ∃ new, later[id]? = some new)
      (StoppedEarly names simplifies start.memo) := by
  induction order generalizing before renamed state with
  | nil =>
    rw [List.append_nil]
    exact .pure ⟨inserted, visited⟩
  | cons id rest ih =>
    obtain ⟨reference, found⟩ := complete id (by simp)
    obtain ⟨correlated, listed, -⟩ := recorded id (by simp)
    cases arranged with
    | cons inputs arranged =>
      rw [List.foldlM_cons]
      refine .bind ((renameNext_inserts inserted visited inputs found listed).imp ?_)
      intro later between outcome
      obtain ⟨further, joined⟩ := outcome
      rw [List.append_cons]
      exact ih further joined arranged (fun other member => complete other (by simp [member]))
        fun other member => recorded other (by simp [member])

/-- Where the graph cannot be ordered, renaming does nothing. -/
theorem renameCorrelations_of_error {ids : List ReferenceId} {state : MemoState ε} {error : MemoError}
    (stopped : state.memo.topologicalOrder ids = .error error) :
    renameCorrelations names simplifies ids state = .error error state := by
  show (MemoM.ofExcept (state.memo.topologicalOrder ids) >>= _ : MemoM ε _) state = _
  rw [stopped]
  rfl

/-- Renaming fails on a broken graph, with the error that says what is wrong and without any change.
Otherwise it inserts references, and returns unless an expression cannot be renamed. -/
theorem renameCorrelations_ends (names : Renaming) (simplifies : Bool) (ids : List ReferenceId)
    (state : MemoState ε) :
    Ends (renameCorrelations names simplifies ids) state
      (fun _ after => state.memo.Grounded ids ∧ state.memo.Inserted after.memo)
      (fun error after => state.memo.Broken ids error ∧ after = state ∨
        state.memo.Grounded ids ∧ StoppedEarly names simplifies state.memo error after) := by
  obtain ⟨order, -, grounded, -⟩ | ⟨error, stopped, broken⟩ := state.memo.topologicalOrder_ends ids
  · obtain ⟨order, correlations, -, elements, arranged, recorded, inOrder⟩ :=
      renameCorrelations_inOrder names simplifies grounded
    unfold Ends
    rw [inOrder]
    have none : ∀ id ∈ ([] : List ReferenceId), ∃ new, (∅ : Renamed)[id]? = some new := by simp
    have visits : Ends (order.foldlM (renameNext names simplifies correlations) ∅) state _ _ :=
      renameInOrder_inserts .refl none arranged (fun id member => grounded.complete id ((elements id).mp member))
        recorded
    refine Ends.bind (visits.mono ?_ fun _ _ stopped => .inr ⟨grounded, stopped⟩)
    intro renamed after outcome
    obtain ⟨inserted, visited⟩ := outcome
    refine (lookUp_returns ids (fun id member => visited id ((elements id).mpr (.of_mem member))) after).mono ?_
      fun _ _ absurdity => absurdity.elim
    intro results final outcome
    obtain ⟨rfl, -⟩ := outcome
    exact ⟨grounded, inserted⟩
  · unfold Ends
    rw [renameCorrelations_of_error stopped]
    exact .inl ⟨broken, rfl⟩

/-- Lawful expressions can all be renamed. -/
theorem not_cannotRename [LawfulRelationalExpression ε] (interruption : Interruption) :
    ¬ CannotRename ε names simplifies interruption := by
  intro cannot
  obtain ⟨expression, inputs, before, after, size, failed⟩ := cannot
  exact (LawfulRelationalExpression.rename_draws names simplifies inputs before expression size before
    (Nat.le_refl _)).at_error failed

/-- Renaming lawful expressions fails on broken graphs only, and then changes nothing. -/
theorem renameCorrelations_decides [LawfulRelationalExpression ε] (names : Renaming) (simplifies : Bool)
    (ids : List ReferenceId) (state : MemoState ε) :
    Ends (renameCorrelations names simplifies ids) state (fun _ _ => state.memo.Grounded ids)
      (fun error after => state.memo.Broken ids error ∧ after = state) := by
  refine (renameCorrelations_ends names simplifies ids state).mono (fun _ _ outcome => outcome.1) ?_
  intro error after outcome
  obtain broken | ⟨-, -, interruption, -, cannot⟩ := outcome
  · exact broken
  · exact absurd cannot (not_cannotRename interruption)

/-- Where nothing can be renamed is where the references cannot be ordered. -/
theorem renameCorrelations_eq_error_iff [LawfulRelationalExpression ε] {ids : List ReferenceId}
    {state after : MemoState ε} {error : MemoError} :
    renameCorrelations names simplifies ids state = .error error after ↔
      state.memo.topologicalOrder ids = .error error ∧ after = state := by
  constructor
  · intro ran
    obtain ⟨broken, rfl⟩ := (renameCorrelations_decides names simplifies ids state).at_error ran
    obtain ⟨order, -, grounded, -⟩ | ⟨other, stopped, -⟩ := after.memo.topologicalOrder_ends ids
    · exact absurd broken (grounded.not_broken error)
    · obtain ⟨rfl, -⟩ := EStateM.Result.error.inj (ran.symm.trans (renameCorrelations_of_error stopped))
      exact ⟨stopped, rfl⟩
  · intro outcome
    obtain ⟨stopped, rfl⟩ := outcome
    exact renameCorrelations_of_error stopped

/-- If what can be reached is not all there and acyclic, renaming reports what is wrong. -/
theorem renameCorrelations_breaks [LawfulRelationalExpression ε] (names : Renaming) (simplifies : Bool)
    {ids : List ReferenceId} {state : MemoState ε} (ungrounded : ¬ state.memo.Grounded ids) :
    ∃ error, renameCorrelations names simplifies ids state = .error error state ∧
      state.memo.Broken ids error := by
  have ends := renameCorrelations_decides names simplifies ids state
  cases ran : renameCorrelations names simplifies ids state with
  | ok results after => exact absurd (ends.at_ok ran) ungrounded
  | error error after =>
    obtain ⟨broken, rfl⟩ := ends.at_error ran
    exact ⟨error, rfl, broken⟩

/-- Renaming returns what every given reference has become, if all that can be reached from them is
there and acyclic. -/
theorem renameCorrelations_returns [LawfulRelationalExpression ε] (names : Renaming) (simplifies : Bool)
    {ids : List ReferenceId} {state : MemoState ε} (grounded : state.memo.Grounded ids)
    (allocated : state.Allocated) :
    Returns (renameCorrelations names simplifies ids) state fun results after =>
      ∃ order renamed, (∀ id, id ∈ order ↔ state.memo.Reaches ids id) ∧
        Visited names simplifies state order renamed after ∧ results = ids.map renamed.becomes := by
  refine ((renameCorrelations_visits names simplifies grounded allocated).and
    (renameCorrelations_decides names simplifies ids state)).mono ?_ ?_
  · intro results after outcome
    obtain ⟨⟨order, renamed, -, elements, visited, same⟩, -⟩ := outcome
    exact ⟨order, renamed, elements, visited, same⟩
  · intro error after outcome
    exact grounded.not_broken error outcome.2.1

end QueryOptimizer
