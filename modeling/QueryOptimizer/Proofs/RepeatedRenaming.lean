import QueryOptimizer.Proofs.Relation

/-!
Renaming a graph of relational expressions for good: if no target is a source, then no source is left in
what is returned, and renaming that again changes nothing of it.
-/
namespace QueryOptimizer
variable {names : Renaming} {simplifies : Bool} {start state : MemoState Relation}
variable {order ids : List ReferenceId} {renamed : Renamed}

/-- The new names of a member are not sources, if no target is. -/
theorem MemberBecomes.renames_nothing {becomes : ReferenceId → ReferenceId} {supply : Supply}
    {member image : Member Relation} (become : MemberBecomes names simplifies becomes supply member image)
    (targets : ∀ source target, names.target? source = some target → names.renames target = false)
    (allocated : member.expression.Allocated supply) :
    ∀ symbol ∈ image.expression.ownCorrelations, names.renames symbol = false := by
  cases become with
  | kept untouched => exact Renaming.renamesAny_eq_false_iff.mp untouched.1
  | renamed _ later found _ =>
    have draws := Relation.rename_draws names simplifies (movedInputs becomes member.expression) supply
      member.expression (List.length_map _) _ later
    exact ((draws.at_ok found).2.2 allocated).1.not_renames targets

/-- No source is free in what a reference has become, whichever aliases its members bind. -/
theorem Visited.renames_nothing (visited : Visited names simplifies start order renamed state)
    (elements : ∀ id, id ∈ order ↔ start.memo.Reaches ids id) (grounded : start.memo.Grounded ids)
    (settled : start.Settled)
    (targets : ∀ source target, names.target? source = some target → names.renames target = false) :
    ∀ id, start.memo.Reaches ids id → ∀ symbol, state.memo.Free (renamed.becomes id) symbol →
      names.renames symbol = false := by
  refine grounded.induction ?_
  intro id reached inputs symbol free
  cases visited.each id ((elements id).mpr reached) with
  | kept _ none stays =>
    rw [stays, Memo.free_iff_of_grown grounded visited.memo id reached] at free
    exact none symbol free
  | renamed found _ _ members _ present =>
    obtain ⟨result, listed, refers, -⟩ := (Memo.free_iff present).mp free
    obtain ⟨member, known, rfl⟩ := (Reference.mem_members_moved members.distinct).mp listed
    have become := members.each member known
    rcases refers with own | ⟨moved, among, below⟩
    · exact become.renames_nothing targets (settled id _ found member known) symbol own
    · rw [become.inputs] at among
      obtain ⟨quantifier, input, rfl⟩ := List.mem_map.mp among
      exact inputs _ (.of_quantifier found known input) symbol below

/-- If no target is a source, then what renaming returns is correlated to no source, and renaming it again
returns just the same references. -/
theorem renameCorrelations_removes_sources (names : Renaming) (simplifies : Bool) (ids : List ReferenceId)
    (state : MemoState Relation) (grounded : state.memo.Grounded ids) (allocated : state.Allocated)
    (settled : state.Settled)
    (targets : ∀ source target, names.target? source = some target → names.renames target = false) :
    ∃ results after, renameCorrelations names simplifies ids state = .ok results after ∧
      (∀ result ∈ results, ∃ correlated, after.memo.correlatedTo result = .ok correlated ∧
        ∀ symbol ∈ correlated, names.renames symbol = false) ∧
      ∀ simplifiesAgain, ∃ last,
        renameCorrelations names simplifiesAgain results after = .ok results last := by
  obtain ⟨results, after, ran, order, renamed, elements, visited, rfl⟩ :=
    (renameCorrelations_returns names simplifies grounded allocated).returned
  have renamesNothing := visited.renames_nothing elements grounded settled targets
  have single {result : ReferenceId} (returned : result ∈ ids.map renamed.becomes) :
      after.memo.Grounded [result] ∧ ∀ symbol, after.memo.Free result symbol → names.renames symbol = false := by
    obtain ⟨id, given, rfl⟩ := List.mem_map.mp returned
    have reached : state.memo.Reaches ids id := .of_mem given
    exact ⟨visited.grounded_becomes elements grounded reached, renamesNothing id reached⟩
  refine ⟨_, after, ran, ?_, ?_⟩
  · intro result returned
    obtain ⟨graph, none⟩ := single returned
    obtain ⟨correlated, found, described⟩ := Memo.correlatedTo_ok graph
    exact ⟨correlated, found, fun symbol member => none symbol ((described symbol).mp member)⟩
  · intro simplifiesAgain
    obtain ⟨again, last, ranAgain, orderAgain, renamedAgain, elementsAgain, visitedAgain, rfl⟩ :=
      (renameCorrelations_returns names simplifiesAgain (Memo.Grounded.of_each fun result returned =>
        (single returned).1) visited.allocated).returned
    have stays : ∀ result ∈ ids.map renamed.becomes, renamedAgain.becomes result = result :=
      fun result returned =>
        (visitedAgain.each result ((elementsAgain result).mpr (.of_mem returned))).eq_iff.mpr (single returned).2
    rw [List.map_congr_left stays, List.map_id'] at ranAgain
    exact ⟨last, ranAgain⟩

/-- The selection with both its aliases renamed and its values simplified. -/
theorem renameCorrelations_removes_sources_outerComparison :
    outerComparison.memo.Grounded [⟨1⟩] ∧ outerComparison.Allocated ∧ outerComparison.Settled ∧
      (∀ source target, bothRenamed.target? source = some target → bothRenamed.renames target = false) ∧
      ∃ results after, renameCorrelations bothRenamed true [⟨1⟩] outerComparison = .ok results after ∧
        (∀ result ∈ results, ∃ correlated, after.memo.correlatedTo result = .ok correlated ∧
          ⟨"p"⟩ ∉ correlated ∧ ⟨"q"⟩ ∉ correlated) ∧
        ∃ last, renameCorrelations bothRenamed true results after = .ok results last := by
  have targets : ∀ source target, bothRenamed.target? source = some target →
      bothRenamed.renames target = false := by
    intro source target found
    rcases target?_bothRenamed found with rfl | rfl
    · simp [bothRenamed, Renaming.renames, Renaming.insert, Renaming.empty]
    · simp [bothRenamed, Renaming.renames, Renaming.insert, Renaming.empty]
  obtain ⟨results, after, ran, uncorrelated, again⟩ := renameCorrelations_removes_sources bothRenamed true [⟨1⟩]
    outerComparison outerComparison_grounded outerComparison_allocated outerComparison_settled targets
  refine ⟨outerComparison_grounded, outerComparison_allocated, outerComparison_settled, targets, results, after,
    ran, ?_, again true⟩
  have sources : bothRenamed.renames ⟨"p"⟩ = true ∧ bothRenamed.renames ⟨"q"⟩ = true := by
    simp [bothRenamed, Renaming.renames, Renaming.insert]
  intro result returned
  obtain ⟨correlated, found, none⟩ := uncorrelated result returned
  have absent {symbol : Alias} (source : bothRenamed.renames symbol = true) : symbol ∉ correlated := by
    intro member
    rw [none symbol member] at source
    cases source
  exact ⟨correlated, found, absent sources.1, absent sources.2⟩

end QueryOptimizer
