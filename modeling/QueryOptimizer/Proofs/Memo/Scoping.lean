import QueryOptimizer.Proofs.Memo.Renaming

/-!
What a renamed graph is correlated to. Renaming replaces the source aliases in the values of a member
whether the member binds them or not, while its quantifiers keep their names. So a source that occurs
bound in a replaced reference comes out free, under its new name.
-/
namespace QueryOptimizer
variable {ε : Type} [RelationalExpression ε]

namespace Memo

/-- Some source is free in the reference called `id`. -/
def Affected (memo : Memo ε) (names : Renaming) (id : ReferenceId) : Prop :=
  ∃ symbol, memo.Free id symbol ∧ names.renames symbol = true

/-- The source occurs, free or bound, in a member of an affected reference, or in an affected input of
one through affected references only. -/
inductive Rewritten (memo : Memo ε) (names : Renaming) : ReferenceId → Alias → Prop where
  | own {id : ReferenceId} : memo.Affected names id → memo.get? id = some reference →
      member ∈ reference.members → source ∈ RelationalExpression.ownCorrelations member.expression →
      names.renames source = true → Rewritten memo names id source
  | inherited {id : ReferenceId} : memo.Affected names id → memo.get? id = some reference →
      member ∈ reference.members → quantifier ∈ RelationalExpression.quantifiers member.expression →
      Rewritten memo names quantifier.rangesOver source → Rewritten memo names id source

/-- The aliases that a reference is correlated to once it was renamed: the new names of its free aliases,
and of the sources that were rewritten in it. -/
def Correlates (memo : Memo ε) (names : Renaming) (id : ReferenceId) (symbol : Alias) : Prop :=
  (∃ free, memo.Free id free ∧ symbol = names.apply free) ∨
    ∃ source, memo.Rewritten names id source ∧ symbol = names.apply source

/-- No target of the renaming is bound in what can be reached from `ids`. -/
def NoCapture (memo : Memo ε) (names : Renaming) (ids : List ReferenceId) : Prop :=
  ∀ id, memo.Reaches ids id → ∀ reference, memo.get? id = some reference →
    ∀ member ∈ reference.members, ∀ source target, names.target? source = some target →
      ¬ Binds member.expression target

variable {memo : Memo ε} {names : Renaming} {id : ReferenceId} {symbol source : Alias}

/-- A reference is known to be correlated to a source exactly if some source is free in it. -/
theorem correlated_to_source_iff (grounded : memo.Grounded [id]) :
    (∃ correlated, memo.correlatedTo id = .ok correlated ∧ names.renamesAny correlated = true) ↔
      ¬ ∀ symbol, memo.Free id symbol → names.renames symbol = false := by
  obtain ⟨correlated, found, described⟩ := correlatedTo_ok grounded
  have none : names.renamesAny correlated = false ↔ ∀ symbol, memo.Free id symbol → names.renames symbol = false := by
    rw [Renaming.renamesAny_eq_false_iff]
    exact forall_congr' fun symbol => imp_congr_left (described symbol)
  rw [← none, Bool.not_eq_false]
  constructor
  · intro known
    obtain ⟨other, same, renames⟩ := known
    obtain rfl := Except.ok.inj (found.symm.trans same)
    exact renames
  · exact fun renames => ⟨correlated, found, renames⟩

theorem Rewritten.renames (rewritten : memo.Rewritten names id source) : names.renames source = true := by
  induction rewritten with
  | own _ _ _ _ renamed => exact renamed
  | inherited _ _ _ _ _ ih => exact ih

theorem Rewritten.affected (rewritten : memo.Rewritten names id source) : memo.Affected names id := by
  cases rewritten with
  | own affected => exact affected
  | inherited affected => exact affected

/-- A free source is rewritten. -/
theorem Free.rewritten (free : memo.Free id source) (renamed : names.renames source = true) :
    memo.Rewritten names id source := by
  induction free with
  | own found member refers unbound =>
    exact .own ⟨_, .own found member refers unbound, renamed⟩ found member refers renamed
  | inherited found member input below unbound ih =>
    exact .inherited ⟨_, .inherited found member input below unbound, renamed⟩ found member input (ih renamed)

/-- Nothing is rewritten in a reference that is not affected. -/
theorem correlates_of_not_affected (unaffected : ∀ symbol, memo.Free id symbol → names.renames symbol = false) :
    memo.Correlates names id symbol ↔ memo.Free id symbol := by
  constructor
  · intro correlates
    rcases correlates with ⟨free, occurs, rfl⟩ | ⟨source, rewritten, rfl⟩
    · rwa [Renaming.apply_of_not_renames (unaffected free occurs)]
    · obtain ⟨other, occurs, renamed⟩ := rewritten.affected
      rw [unaffected other occurs] at renamed
      cases renamed
  · intro free
    exact .inl ⟨symbol, free, (Renaming.apply_of_not_renames (unaffected symbol free)).symm⟩

/-- What a member contributes to the aliases that its reference is correlated to after renaming. -/
def Contributes (memo : Memo ε) (names : Renaming) (expression : ε) (symbol : Alias) : Prop :=
  ((∃ source ∈ RelationalExpression.ownCorrelations expression, symbol = names.apply source) ∨
      ∃ quantifier ∈ RelationalExpression.quantifiers expression,
        memo.Correlates names quantifier.rangesOver symbol) ∧
    ¬ Binds expression symbol

/-- An affected reference is correlated to what its members contribute, unless a target is captured. -/
theorem correlates_iff (affected : memo.Affected names id) {reference : Reference ε}
    (found : memo.get? id = some reference)
    (uncaptured : ∀ member ∈ reference.members, ∀ source, names.renames source = true →
      ¬ Binds member.expression (names.apply source)) :
    memo.Correlates names id symbol ↔
      ∃ member ∈ reference.members, memo.Contributes names member.expression symbol := by
  constructor
  · intro correlates
    rcases correlates with ⟨free, occurs, rfl⟩ | ⟨source, rewritten, rfl⟩
    · obtain ⟨member, present, refers, unbound⟩ := (free_iff found).mp occurs
      refine ⟨member, present, ?_, ?_⟩
      · rcases refers with own | ⟨quantifier, input, below⟩
        · exact .inl ⟨free, own, rfl⟩
        · exact .inr ⟨quantifier, input, .inl ⟨free, below, rfl⟩⟩
      · by_cases renamed : names.renames free = true
        · exact uncaptured member present free renamed
        · rwa [Renaming.apply_of_not_renames (Bool.not_eq_true _ ▸ renamed)]
    · have unbound := fun member present => uncaptured member present source rewritten.renames
      cases rewritten with
      | own _ same present refers =>
        obtain rfl := Option.some.inj (found.symm.trans same)
        exact ⟨_, present, .inl ⟨source, refers, rfl⟩, unbound _ present⟩
      | inherited _ same present input below =>
        obtain rfl := Option.some.inj (found.symm.trans same)
        exact ⟨_, present, .inr ⟨_, input, .inr ⟨source, below, rfl⟩⟩, unbound _ present⟩
  · intro contributes
    obtain ⟨member, present, refers, unbound⟩ := contributes
    rcases refers with ⟨occurring, own, rfl⟩ | ⟨quantifier, input, below⟩
    · by_cases renamed : names.renames occurring = true
      · exact .inr ⟨occurring, .own affected found present own renamed, rfl⟩
      · have same := Renaming.apply_of_not_renames (Bool.not_eq_true _ ▸ renamed)
        rw [same] at unbound
        exact .inl ⟨occurring, .own found present own unbound, rfl⟩
    · rcases below with ⟨free, occurs, rfl⟩ | ⟨source, rewritten, rfl⟩
      · by_cases renamed : names.renames free = true
        · exact .inr ⟨free, .inherited affected found present input (occurs.rewritten renamed), rfl⟩
        · have same := Renaming.apply_of_not_renames (Bool.not_eq_true _ ▸ renamed)
          rw [same] at unbound
          exact .inl ⟨free, .inherited found present input occurs unbound, rfl⟩
      · exact .inr ⟨source, .inherited affected found present input rewritten, rfl⟩

/-- The references that can be reached stay what they are while the memo grows, and so do the aliases that
are free in them. -/
theorem free_iff_of_grown {later : Memo ε} {ids : List ReferenceId} (grounded : memo.Grounded ids)
    (grown : ∀ id reference, memo.get? id = some reference → later.get? id = some reference) :
    ∀ id, memo.Reaches ids id → ∀ symbol, later.Free id symbol ↔ memo.Free id symbol := by
  refine grounded.induction ?_
  intro id reached inputs symbol
  obtain ⟨reference, found⟩ := grounded.complete id reached
  rw [free_iff found, free_iff (grown id reference found)]
  refine exists_congr fun member => and_congr_right fun present => and_congr_left' (or_congr_right ?_)
  refine exists_congr fun quantifier => and_congr_right fun input => ?_
  exact inputs _ (.of_quantifier found present input) symbol

end Memo

variable [LawfulRelationalExpression ε] {names : Renaming} {start state : MemoState ε}
variable {order ids : List ReferenceId} {renamed : Renamed} {id : ReferenceId}

/-- The supply hands out none of the identities in the expressions of members again. -/
def MemoState.Settled (state : MemoState ε) : Prop :=
  ∀ id reference, state.memo.get? id = some reference → ∀ member ∈ reference.members,
    LawfulRelationalExpression.Allocated state.supply member.expression

/-- A new member ranges over what the inputs of the old one have become, under the same names, and refers
to the new names of what that refers to. -/
structure Follows (names : Renaming) (becomes : ReferenceId → ReferenceId) (expression new : ε) : Prop where
  inputs : RelationalExpression.quantifiers new = movedInputs becomes expression
  images : names.Images (RelationalExpression.ownCorrelations expression)
    (RelationalExpression.ownCorrelations new)

/-- What a member becomes ranges over what its inputs become. -/
theorem MemberBecomes.inputs {becomes : ReferenceId → ReferenceId} {simplifies : Bool} {supply : Supply}
    {member image : Member ε} (become : MemberBecomes names simplifies becomes supply member image) :
    RelationalExpression.quantifiers image.expression = movedInputs becomes member.expression := by
  cases become with
  | kept untouched => exact (movedInputs_eq_iff.mpr untouched.2).symm
  | renamed _ later found _ =>
    have draws := LawfulRelationalExpression.rename_draws names simplifies (movedInputs becomes member.expression)
      supply member.expression (List.length_map _) _ later
    exact (draws.at_ok found).2.1

theorem MemberBecomes.follows {becomes : ReferenceId → ReferenceId} {supply : Supply} {member image : Member ε}
    (become : MemberBecomes names false becomes supply member image)
    (allocated : LawfulRelationalExpression.Allocated supply member.expression) :
    Follows names becomes member.expression image.expression := by
  refine ⟨become.inputs, ?_⟩
  cases become with
  | kept untouched =>
    have none := Renaming.renamesAny_eq_false_iff.mp untouched.1
    intro symbol
    constructor
    · intro refers
      exact ⟨symbol, refers, (Renaming.apply_of_not_renames (none symbol refers)).symm⟩
    · intro image
      obtain ⟨source, refers, rfl⟩ := image
      rwa [Renaming.apply_of_not_renames (none source refers)]
  | renamed _ later found _ =>
    have draws := LawfulRelationalExpression.rename_draws names false (movedInputs becomes member.expression)
      supply member.expression (List.length_map _) _ later
    exact (draws.at_ok found).2.2 rfl allocated

omit [LawfulRelationalExpression ε] in
theorem Follows.binds_iff {becomes : ReferenceId → ReferenceId} {expression new : ε} {symbol : Alias}
    (follows : Follows names becomes expression new) : Binds new symbol ↔ Binds expression symbol := by
  unfold Binds
  rw [follows.inputs]
  constructor
  · intro bound
    obtain ⟨moved, input, same⟩ := bound
    obtain ⟨quantifier, present, rfl⟩ := List.mem_map.mp input
    exact ⟨quantifier, present, same⟩
  · intro bound
    obtain ⟨quantifier, present, same⟩ := bound
    exact ⟨_, List.mem_map_of_mem present, same⟩

omit [LawfulRelationalExpression ε] in
/-- What is free in a new member is what the old one contributes, if that holds of the inputs. -/
theorem Follows.freeIn_iff {becomes : ReferenceId → ReferenceId} {expression new : ε} {memo later : Memo ε}
    (follows : Follows names becomes expression new)
    (inputs : ∀ quantifier ∈ RelationalExpression.quantifiers expression, ∀ symbol,
      later.Free (becomes quantifier.rangesOver) symbol ↔ memo.Correlates names quantifier.rangesOver symbol)
    {symbol : Alias} : FreeIn later.Free new symbol ↔ memo.Contributes names expression symbol := by
  refine and_congr (or_congr (follows.images symbol) ?_) (not_congr follows.binds_iff)
  rw [follows.inputs]
  constructor
  · intro free
    obtain ⟨moved, input, below⟩ := free
    obtain ⟨quantifier, present, rfl⟩ := List.mem_map.mp input
    exact ⟨quantifier, present, (inputs quantifier present symbol).mp below⟩
  · intro correlates
    obtain ⟨quantifier, present, below⟩ := correlates
    exact ⟨_, List.mem_map_of_mem present, (inputs quantifier present symbol).mpr below⟩

namespace Visited

/-- A reference of the renamed graph is a version of one of the graph at the start: that reference itself or
what it has become. -/
def Version (start : MemoState ε) (ids : List ReferenceId) (renamed : Renamed) (id version : ReferenceId) :
    Prop :=
  start.memo.Reaches ids id ∧ (version = id ∨ version = renamed.becomes id)

variable {version input : ReferenceId}

/-- What is free in a reference after renaming. -/
theorem free_becomes_iff (visited : Visited names false start order renamed state)
    (elements : ∀ id, id ∈ order ↔ start.memo.Reaches ids id) (grounded : start.memo.Grounded ids)
    (settled : start.Settled) (uncaptured : start.memo.NoCapture names ids) :
    ∀ id, start.memo.Reaches ids id → ∀ symbol,
      state.memo.Free (renamed.becomes id) symbol ↔ start.memo.Correlates names id symbol := by
  refine grounded.induction ?_
  intro id reached inputs symbol
  obtain ⟨reference, here⟩ := grounded.complete id reached
  cases visited.each id ((elements id).mpr reached) with
  | kept _ none stays =>
    rw [stays, Memo.free_iff_of_grown grounded visited.memo id reached, Memo.correlates_of_not_affected none]
  | renamed found free source members new present =>
    rename_i image
    obtain rfl := Option.some.inj (here.symm.trans found)
    have each : ∀ member ∈ reference.members,
        FreeIn state.memo.Free (image member).expression symbol ↔
          start.memo.Contributes names member.expression symbol := by
      intro member listed
      refine ((members.each member listed).follows (settled id _ found member listed)).freeIn_iff ?_
      intro quantifier input
      exact inputs _ (.of_quantifier found listed input)
    rw [Memo.free_iff present, Memo.correlates_iff ⟨_, free, source⟩ found]
    · constructor
      · intro occurs
        obtain ⟨new, listed, free⟩ := occurs
        obtain ⟨member, known, rfl⟩ := (Reference.mem_members_moved members.distinct).mp listed
        exact ⟨member, known, (each member known).mp free⟩
      · intro contributes
        obtain ⟨member, known, contributed⟩ := contributes
        exact ⟨image member, (Reference.mem_members_moved members.distinct).mpr ⟨member, known, rfl⟩,
          (each member known).mpr contributed⟩
    · intro member listed source renamed
      exact uncaptured id reached _ found member listed source _ (Renaming.target?_of_renames renamed)

section Whole
variable {simplifies : Bool} (visited : Visited names simplifies start order renamed state)
variable (elements : ∀ id, id ∈ order ↔ start.memo.Reaches ids id) (grounded : start.memo.Grounded ids)
include visited elements grounded

omit [LawfulRelationalExpression ε] in
theorem version_known (of : Version start ids renamed id version) :
    ∃ reference, state.memo.get? version = some reference := by
  obtain ⟨reached, rfl | rfl⟩ := of
  · obtain ⟨reference, found⟩ := grounded.complete version reached
    exact ⟨reference, visited.memo version reference found⟩
  · exact visited.becomes_known ((elements id).mpr reached)

omit [LawfulRelationalExpression ε] in
/-- No reference is a version of two. -/
theorem version_unique {other : ReferenceId} (of : Version start ids renamed id version)
    (ofOther : Version start ids renamed other version) : id = other := by
  have fresh {one other : ReferenceId} (first : start.memo.Reaches ids one) (second : start.memo.Reaches ids other)
      (same : renamed.becomes one = other) : one = other := by
    obtain ⟨reference, here⟩ := grounded.complete other second
    cases visited.each one ((elements one).mpr first) with
    | kept _ _ stays => exact stays.symm.trans same
    | renamed _ _ _ _ new =>
      rw [same, here] at new
      cases new
  obtain ⟨reached, rfl | rfl⟩ := of
  · rcases ofOther.2 with same | same
    · exact same
    · exact (fresh ofOther.1 reached same.symm).symm
  · rcases ofOther.2 with same | same
    · exact fresh reached ofOther.1 same
    · exact visited.distinct _ ((elements _).mpr reached) _ ((elements _).mpr ofOther.1) same

omit grounded in
/-- What takes the place of a reference ranges over what its inputs have become. -/
theorem ranges_becomes_iff (reached : start.memo.Reaches ids id) (changed : renamed.becomes id ≠ id) :
    state.memo.RangesOver (renamed.becomes id) input ↔
      ∃ original, start.memo.RangesOver id original ∧ input = renamed.becomes original := by
  cases visited.each id ((elements id).mpr reached) with
  | kept _ _ stays => exact absurd stays changed
  | renamed found free source members new present =>
    rename_i image
    rw [Memo.RangesOver.mem_inputs present, Memo.mem_inputs]
    constructor
    · rintro ⟨result, listed, moved, among, rfl⟩
      obtain ⟨member, known, rfl⟩ := (Reference.mem_members_moved members.distinct).mp listed
      rw [(members.each member known).inputs] at among
      obtain ⟨quantifier, occurs, rfl⟩ := List.mem_map.mp among
      exact ⟨quantifier.rangesOver, .of_quantifier found known occurs, rfl⟩
    · rintro ⟨original, ranges, rfl⟩
      obtain ⟨member, known, quantifier, occurs, rfl⟩ :=
        Memo.mem_inputs.mp ((Memo.RangesOver.mem_inputs found).mp ranges)
      refine ⟨image member, (Reference.mem_members_moved members.distinct).mpr ⟨member, known, rfl⟩,
        quantifier.rangingOver (renamed.becomes quantifier.rangesOver), ?_, rfl⟩
      rw [(members.each member known).inputs]
      exact List.mem_map_of_mem occurs

/-- Versions range over versions of inputs. -/
theorem version_ranges (of : Version start ids renamed id version)
    (ranges : state.memo.RangesOver version input) :
    ∃ original, Version start ids renamed original input ∧ start.memo.RangesOver id original := by
  obtain ⟨reached, same⟩ := of
  by_cases unchanged : version = id
  · subst unchanged
    obtain ⟨reference, here⟩ := grounded.complete version reached
    have inputs := (Memo.RangesOver.mem_inputs (visited.memo version reference here)).mp ranges
    have earlier := (Memo.RangesOver.mem_inputs here).mpr inputs
    exact ⟨input, ⟨reached.tail earlier, .inl rfl⟩, earlier⟩
  · obtain rfl := same.resolve_left unchanged
    obtain ⟨original, earlier, rfl⟩ := (visited.ranges_becomes_iff elements reached unchanged).mp ranges
    exact ⟨original, ⟨reached.tail earlier, .inr rfl⟩, earlier⟩

/-- What can be reached from what a reference has become is all there and acyclic. -/
theorem grounded_becomes (reached : start.memo.Reaches ids id) :
    state.memo.Grounded [renamed.becomes id] := by
  have version : ∀ other, state.memo.Reaches [renamed.becomes id] other →
      ∃ original, Version start ids renamed original other := by
    intro other reaches
    obtain ⟨first, given, path⟩ := reaches
    obtain rfl := List.mem_singleton.mp given
    induction path with
    | refl => exact ⟨id, reached, .inr rfl⟩
    | tail _ ranges ih =>
      obtain ⟨original, of⟩ := ih
      obtain ⟨input, ofInput, -⟩ := visited.version_ranges elements grounded of ranges
      exact ⟨input, ofInput⟩
  constructor
  · intro other reaches
    obtain ⟨original, of⟩ := version other reaches
    exact visited.version_known elements grounded of
  · intro other reaches cycle
    obtain ⟨original, of⟩ := version other reaches
    have path {last : ReferenceId} (steps : Relation.TransGen state.memo.RangesOver other last) :
        ∃ input, Version start ids renamed input last ∧
          Relation.TransGen start.memo.RangesOver original input := by
      induction steps with
      | single ranges =>
        obtain ⟨input, ofInput, earlier⟩ := visited.version_ranges elements grounded of ranges
        exact ⟨input, ofInput, .single earlier⟩
      | tail _ ranges ih =>
        obtain ⟨between, ofBetween, earlier⟩ := ih
        obtain ⟨input, ofInput, last⟩ := visited.version_ranges elements grounded ofBetween ranges
        exact ⟨input, ofInput, earlier.tail last⟩
    obtain ⟨again, ofAgain, earlier⟩ := path cycle
    obtain rfl := visited.version_unique elements grounded of ofAgain
    exact grounded.acyclic original of.1 earlier

end Whole
end Visited
end QueryOptimizer
