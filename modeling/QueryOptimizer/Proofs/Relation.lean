import QueryOptimizer.Proofs.Memo.Outcome
import QueryOptimizer.Proofs.Memo.Scoping
import QueryOptimizer.Proofs.Predicate.Confinement
import QueryOptimizer.Proofs.Predicate.Renaming
import QueryOptimizer.Proofs.Predicate.Termination
import QueryOptimizer.Relation

/-!
Renaming relational expressions, and graphs of references with relational expressions as members.
-/
namespace QueryOptimizer

namespace Relation
variable {names : Renaming} {start : Supply}

/-- The supply hands out none of the identities in the values of the expression again. -/
def Allocated (supply : Supply) : Relation → Prop
  | select _ predicates projection =>
    (∀ predicate ∈ predicates, predicate.Allocated supply) ∧
      ∀ scalar ∈ projection, Tree.Allocated supply scalar
  | _ => True

/-- Simplifying with rules that need no more than identities draws identities only. -/
theorem withoutClient_draws {computation : RuleM Unit α} {holds : α → Prop}
    (returns : ∀ session, Returns computation session fun result after =>
      session.supply.allocated ≤ after.supply.allocated ∧ holds result) :
    Draws (withoutClient computation) start holds := by
  intro supply _
  have known := returns ⟨supply, ()⟩
  unfold Returns Ends at known ⊢
  unfold withoutClient
  split at known
  · rename_i found
    simp only [found]
    exact known
  · exact False.elim known

/-- Simplified values refer to nothing new. -/
theorem simplifyValues_draws (predicates : List Predicate) (projection : List Scalar) :
    Draws (simplifyValues predicates projection) start fun simplified =>
      (∀ symbol ∈ Predicate.correlatedToEach simplified.1, symbol ∈ Predicate.correlatedToEach predicates) ∧
        ∀ symbol ∈ Scalar.correlatedToEach simplified.2, symbol ∈ Scalar.correlatedToEach projection := by
  have simplifyPredicate (predicate : Predicate) : Draws (withoutClient
      (simplify (Predicate.setting {} ⟨Predicate.simplifyingRules⟩) predicate)) start fun simplified =>
        Predicate.RefersOnlyTo predicate.correlatedTo simplified.value :=
    withoutClient_draws fun session => ((Predicate.simplify_lightened {} predicate session).and
      (Predicate.simplify_refersOnlyTo {} predicate session)).mono
        (fun _ _ outcome => ⟨outcome.1.1, outcome.2⟩) fun _ _ absurdity => absurdity.1
  have simplifyScalar (scalar : Scalar) : Draws (withoutClient
      (simplify (Scalar.setting {} ⟨Scalar.allRules⟩) scalar)) start fun simplified =>
        Scalar.RefersOnlyTo scalar.correlatedTo simplified.value :=
    withoutClient_draws fun session => ((Scalar.simplify_lightened {} scalar session).and
      (Scalar.simplify_confined {} scalar session)).mono
        (fun _ _ outcome => ⟨outcome.1.1, outcome.2.1⟩) fun _ _ absurdity => absurdity.1
  unfold simplifyValues
  rw [Predicate.defaultRules_eq, Scalar.defaultRules_eq]
  refine (Draws.mapM predicates fun predicate _ => simplifyPredicate predicate).bind ?_
  intro simplifiedPredicates fromPredicates
  refine (Draws.mapM projection fun scalar _ => simplifyScalar scalar).bind ?_
  intro simplifiedProjection fromProjection
  exact .pure ⟨Predicate.correlatedToEach_within fromPredicates, Scalar.correlatedToEach_within fromProjection⟩

/-- Renaming an expression always returns, and what it returns refers to new names of what the expression
refers to, to all of them unless values are simplified. -/
theorem rename_draws (names : Renaming) (simplifies : Bool) (inputs : List Quantifier) (start : Supply)
    (relation : Relation) (size : inputs.length = relation.quantifiers.length) :
    Draws (rename names simplifies inputs relation) start fun renamed =>
      renamed.quantifiers = inputs ∧ (relation.Allocated start →
        names.Covers relation.ownCorrelations renamed.ownCorrelations ∧
          (simplifies = false → names.Images relation.ownCorrelations renamed.ownCorrelations)) := by
  cases relation with
  | scan table =>
    obtain rfl := List.length_eq_zero_iff.mp size
    exact .pure ⟨rfl, fun _ => ⟨Renaming.Images.empty.covers, fun _ => .empty⟩⟩
  | union => exact .pure ⟨rfl, fun _ => ⟨Renaming.Images.empty.covers, fun _ => .empty⟩⟩
  | select quantifiers predicates projection =>
    refine (Draws.mapM predicates fun predicate _ => predicate.rename_draws names start).bind ?_
    intro renamedPredicates fromPredicates
    refine (Draws.mapM projection fun scalar _ => scalar.rename_draws names start).bind ?_
    intro renamedProjection fromProjection
    have predicateImages (allocated : (select quantifiers predicates projection).Allocated start) :=
      Predicate.images_correlatedToEach (RenamedNode.images_each fromPredicates allocated.1)
    have scalarImages (allocated : (select quantifiers predicates projection).Allocated start) :=
      Scalar.images_correlatedToEach (RenamedNode.images_each fromProjection allocated.2)
    cases simplifies with
    | true =>
      refine (simplifyValues_draws renamedPredicates renamedProjection).bind fun simplified within => ?_
      refine .pure ⟨rfl, fun allocated => ⟨?_, fun kept => nomatch kept⟩⟩
      exact ((predicateImages allocated).covers.within within.1).union
        ((scalarImages allocated).covers.within within.2)
    | false =>
      refine .pure ⟨rfl, fun allocated => ?_⟩
      have images := (predicateImages allocated).union (scalarImages allocated)
      exact ⟨images.covers, fun _ => images⟩

instance : LawfulRelationalExpression Relation where
  Allocated := Allocated
  rename_draws names simplifies inputs start relation size :=
    (rename_draws names simplifies inputs start relation size).imp fun _ outcome =>
      ⟨outcome.1, fun kept allocated => (outcome.2 allocated).2 kept⟩

end Relation

/-- Renaming the correlations of a graph replaces exactly the references that are correlated to a source,
each by a new one with the same stage, and leaves all others in place. The new reference has a member for
every member of the old one, exploratory or final where that is: the same member if it refers to no
source and none of its inputs is replaced, and otherwise a new member that is the expression renamed over
what its inputs have become. -/
theorem renameCorrelations_replaces_correlated (names : Renaming) (simplifies : Bool) (ids : List ReferenceId)
    (state : MemoState Relation) (grounded : state.memo.Grounded ids) (allocated : state.Allocated) :
    ∃ (becomes : ReferenceId → ReferenceId) (after : MemoState Relation),
      renameCorrelations names simplifies ids state = .ok (ids.map becomes) after ∧
      (∀ id reference, state.memo.get? id = some reference → after.memo.get? id = some reference) ∧
      (∀ one other, state.memo.Reaches ids one → state.memo.Reaches ids other →
        becomes one = becomes other → one = other) ∧
      ∀ id, state.memo.Reaches ids id → ∃ reference correlated,
        state.memo.get? id = some reference ∧ state.memo.correlatedTo id = .ok correlated ∧
        (becomes id = id ↔ names.renamesAny correlated = false) ∧
        (becomes id ≠ id → state.memo.get? (becomes id) = none ∧
          ∃ (renamed : Reference Relation) (image : Member Relation → Member Relation),
            after.memo.get? (becomes id) = some renamed ∧ renamed.stage = reference.stage ∧
            renamed.exploratory = (reference.members.filter reference.isExploratory).map image ∧
            renamed.finals = (reference.members.filter reference.isFinal).map image ∧
            ∀ member ∈ reference.members,
              renamed.isExploratory (image member) = reference.isExploratory member ∧
              renamed.isFinal (image member) = reference.isFinal member ∧
              (∀ other ∈ reference.members, sameNode (image member) (image other) = true →
                member = other) ∧
              (image member = member ↔
                names.renamesAny member.expression.ownCorrelations = false ∧
                  ∀ quantifier ∈ member.expression.quantifiers,
                    becomes quantifier.rangesOver = quantifier.rangesOver) ∧
              (image member ≠ member →
                state.supply.allocated ≤ (image member).id.index ∧
                ∃ before later, member.expression.rename names simplifies
                  (member.expression.quantifiers.map fun quantifier =>
                    quantifier.rangingOver (becomes quantifier.rangesOver)) before =
                      .ok (image member).expression later)) := by
  obtain ⟨results, after, ran, order, renamed, elements, visited, rfl⟩ :=
    (renameCorrelations_returns names simplifies grounded allocated).returned
  refine ⟨renamed.becomes, after, ran, visited.memo, ?_, ?_⟩
  · intro one other first second same
    exact visited.distinct one ((elements one).mpr first) other ((elements other).mpr second) same
  intro id reached
  obtain ⟨reference, found⟩ := grounded.complete id reached
  obtain ⟨correlated, listed, described⟩ := Memo.correlatedTo_ok (grounded.of_reaches reached)
  have become := visited.each id ((elements id).mpr reached)
  refine ⟨reference, correlated, found, listed, ?_, ?_⟩
  · rw [become.eq_iff, Renaming.renamesAny_eq_false_iff]
    exact forall_congr' fun symbol => imp_congr_left (described symbol).symm
  intro moves
  cases become with
  | kept _ _ stays => exact absurd stays moves
  | renamed known free source members new present =>
    rename_i image
    obtain rfl := Option.some.inj (found.symm.trans known)
    refine ⟨new, _, image, present, rfl, rfl, rfl, ?_⟩
    intro member listed
    refine ⟨any_sameNode_image members.distinct _ listed, any_sameNode_image members.distinct _ listed, ?_,
      (members.each member listed).eq_iff (allocated id reference found member listed), ?_⟩
    · exact fun other known same => members.distinct member listed other known (sameNode_iff.mp same)
    · intro changes
      have become := members.each member listed
      generalize image member = result at become changes ⊢
      cases become with
      | kept => exact absurd rfl changes
      | renamed _ _ ran new => exact ⟨new, _, _, ran⟩

/-- A selection that compares a column of its own input `q` with a column of an outer `p`. -/
def comparison : Relation :=
  .select [⟨.forEach, ⟨"q"⟩, ⟨0⟩⟩] [.compare ⟨3⟩ .eq (.column ⟨1⟩ ⟨"q"⟩ "a") (.column ⟨2⟩ ⟨"p"⟩ "b")] []

/-- The reference of a table. -/
def tableReference : Reference Relation where
  id := ⟨0⟩
  stage := .initial
  exploratory := [⟨⟨0⟩, .scan "t"⟩]
  finals := []

/-- The reference of the selection. -/
def comparisonReference : Reference Relation where
  id := ⟨1⟩
  stage := .initial
  exploratory := [⟨⟨4⟩, comparison⟩]
  finals := []

/-- A memo of a table and the selection over it. -/
def outerComparison : MemoState Relation where
  memo := ((Memo.empty.insert .initial [⟨⟨0⟩, .scan "t"⟩] []).2.insert .initial [⟨⟨4⟩, comparison⟩] []).2
  supply := ⟨5⟩

theorem outerComparison_get? (id : ReferenceId) : outerComparison.memo.get? id =
    if id = ⟨1⟩ then some comparisonReference else if id = ⟨0⟩ then some tableReference else none := by
  unfold outerComparison
  rw [Memo.get?_insert, Memo.get?_insert, Memo.get?_empty]
  rfl

theorem outerComparison_table : outerComparison.memo.get? ⟨0⟩ = some tableReference := by
  rw [outerComparison_get?, if_neg (by decide), if_pos rfl]

theorem outerComparison_comparison : outerComparison.memo.get? ⟨1⟩ = some comparisonReference := by
  rw [outerComparison_get?, if_pos rfl]

theorem outerComparison_cases {id : ReferenceId} {reference : Reference Relation}
    (found : outerComparison.memo.get? id = some reference) :
    id = ⟨0⟩ ∧ reference = tableReference ∨ id = ⟨1⟩ ∧ reference = comparisonReference := by
  rw [outerComparison_get?] at found
  split at found
  · rename_i last
    exact .inr ⟨last, (Option.some.inj found).symm⟩
  split at found
  · rename_i first
    exact .inl ⟨first, (Option.some.inj found).symm⟩
  · cases found

theorem outerComparison_grounded : outerComparison.memo.Grounded [⟨1⟩] := by
  refine .of_layered ?_ ?_
  · intro id member
    obtain rfl := List.mem_singleton.mp member
    exact ⟨_, outerComparison_comparison⟩
  · intro id input ranges
    obtain ⟨reference, found, member⟩ := ranges
    obtain ⟨rfl, rfl⟩ | ⟨rfl, rfl⟩ := outerComparison_cases found
    · cases member
    · obtain rfl := List.mem_singleton.mp member
      exact ⟨by decide, _, outerComparison_table⟩

theorem outerComparison_allocated : outerComparison.Allocated := by
  intro id reference found member present
  obtain ⟨rfl, rfl⟩ | ⟨rfl, rfl⟩ := outerComparison_cases found
  · obtain rfl := List.mem_singleton.mp present
    decide
  · obtain rfl := List.mem_singleton.mp present
    decide

theorem mem_ownCorrelations_comparison {symbol : Alias} :
    symbol ∈ comparison.ownCorrelations ↔ symbol = ⟨"q"⟩ ∨ symbol = ⟨"p"⟩ := by
  have occurs : symbol ∈ comparison.ownCorrelations ↔ ⟨"q"⟩ = symbol ∨ ⟨"p"⟩ = symbol := by
    simp [comparison, Relation.ownCorrelations, Predicate.correlatedToEach, Predicate.correlatedTo,
      Scalar.correlatedToEach, Scalar.correlatedTo, AliasSet.of]
  exact occurs.trans (or_congr eq_comm eq_comm)

theorem binds_comparison {symbol : Alias} : Binds comparison symbol ↔ ⟨"q"⟩ = symbol := by
  simp [Binds, RelationalExpression.quantifiers, Relation.quantifiers, comparison]

/-- The selection is correlated to the outer alias only. -/
theorem outerComparison_free {symbol : Alias} : outerComparison.memo.Free ⟨1⟩ symbol ↔ symbol = ⟨"p"⟩ := by
  constructor
  · intro free
    cases free with
    | own found member refers unbound =>
      obtain rfl := Option.some.inj (outerComparison_comparison.symm.trans found)
      obtain rfl := List.mem_singleton.mp member
      refine (mem_ownCorrelations_comparison.mp refers).resolve_left ?_
      intro bound
      exact unbound (binds_comparison.mpr bound.symm)
    | inherited found member input below unbound =>
      obtain rfl := Option.some.inj (outerComparison_comparison.symm.trans found)
      obtain rfl := List.mem_singleton.mp member
      obtain rfl := List.mem_singleton.mp input
      cases below with
      | own found member refers =>
        obtain rfl := Option.some.inj (outerComparison_table.symm.trans found)
        obtain rfl := List.mem_singleton.mp member
        exact absurd refers Std.ExtTreeSet.not_mem_empty
      | inherited found member input =>
        obtain rfl := Option.some.inj (outerComparison_table.symm.trans found)
        obtain rfl := List.mem_singleton.mp member
        cases input
  · intro outer
    subst outer
    refine .own outerComparison_comparison (List.mem_singleton_self _)
      (mem_ownCorrelations_comparison.mpr (.inr rfl)) ?_
    rw [binds_comparison]
    decide

/-- Renaming the outer alias replaces the selection. -/
theorem renameCorrelations_replaces_outerComparison :
    outerComparison.memo.Grounded [⟨1⟩] ∧ outerComparison.Allocated ∧
      ∃ id after, renameCorrelations (Renaming.empty.insert ⟨"p"⟩ ⟨"u"⟩) true [⟨1⟩] outerComparison =
        .ok [id] after ∧ id ≠ ⟨1⟩ := by
  refine ⟨outerComparison_grounded, outerComparison_allocated, ?_⟩
  obtain ⟨becomes, after, ran, -, -, each⟩ := renameCorrelations_replaces_correlated
    (Renaming.empty.insert ⟨"p"⟩ ⟨"u"⟩) true [⟨1⟩] outerComparison outerComparison_grounded
    outerComparison_allocated
  obtain ⟨reference, correlated, -, listed, stays, -⟩ :=
    each ⟨1⟩ (.of_mem (List.mem_singleton_self _))
  refine ⟨becomes ⟨1⟩, after, ran, ?_⟩
  intro same
  obtain ⟨known, again, described⟩ := Memo.correlatedTo_ok outerComparison_grounded
  obtain rfl := Except.ok.inj (listed.symm.trans again)
  have kept := Renaming.renamesAny_eq_false_iff.mp (stays.mp same) ⟨"p"⟩
    ((described _).mpr (outerComparison_free.mpr rfl))
  simp [Renaming.renames, Renaming.insert, Renaming.empty] at kept

/-- After renaming, a reference is correlated to the new names of the aliases that it was correlated to, and
to the targets of the sources rewritten in it. These are the new names only, as they should be, exactly
if every source that is rewritten has the target of an alias that was free before. -/
theorem renameCorrelations_images_iff (names : Renaming) (id : ReferenceId) (state : MemoState Relation)
    (grounded : state.memo.Grounded [id]) (allocated : state.Allocated) (settled : state.Settled)
    (uncaptured : state.memo.NoCapture names [id]) :
    ∃ result after before later,
      renameCorrelations names false [id] state = .ok [result] after ∧
      state.memo.correlatedTo id = .ok before ∧ after.memo.correlatedTo result = .ok later ∧
      (∀ symbol, symbol ∈ later ↔ (∃ free ∈ before, symbol = names.apply free) ∨
        ∃ source, state.memo.Rewritten names id source ∧ symbol = names.apply source) ∧
      (names.Images before later ↔ ∀ source, state.memo.Rewritten names id source →
        ∃ free ∈ before, names.apply source = names.apply free) := by
  obtain ⟨results, after, ran, order, renamed, elements, visited, rfl⟩ :=
    (renameCorrelations_returns names false grounded allocated).returned
  have reached : state.memo.Reaches [id] id := .of_mem (List.mem_singleton_self id)
  obtain ⟨before, found, described⟩ := Memo.correlatedTo_ok grounded
  obtain ⟨later, foundLater, describedLater⟩ :=
    Memo.correlatedTo_ok (visited.grounded_becomes elements grounded reached)
  have correlated : ∀ symbol, symbol ∈ later ↔ (∃ free ∈ before, symbol = names.apply free) ∨
      ∃ source, state.memo.Rewritten names id source ∧ symbol = names.apply source := by
    intro symbol
    rw [describedLater, visited.free_becomes_iff elements grounded settled uncaptured id reached]
    exact or_congr_left (exists_congr fun free => and_congr_left' (described free).symm)
  refine ⟨renamed.becomes id, after, before, later, ran, found, foundLater, correlated, ?_⟩
  constructor
  · intro images source rewritten
    exact (images _).mp ((correlated _).mpr (.inr ⟨source, rewritten, rfl⟩))
  · intro covered symbol
    rw [correlated]
    refine or_iff_left_of_imp ?_
    intro extra
    obtain ⟨source, rewritten, rfl⟩ := extra
    exact covered source rewritten

theorem outerComparison_settled : outerComparison.Settled := by
  intro id reference found member present
  obtain ⟨rfl, rfl⟩ | ⟨rfl, rfl⟩ := outerComparison_cases found
  · obtain rfl := List.mem_singleton.mp present
    trivial
  · obtain rfl := List.mem_singleton.mp present
    refine ⟨?_, fun scalar listed => nomatch listed⟩
    intro predicate listed
    obtain rfl := List.mem_singleton.mp listed
    intro node within
    obtain rfl := (Tree.mem_postOrder_of_leaf rfl).mp within
    refine ⟨by decide, ?_⟩
    intro scalar occurs value within
    rcases List.mem_pair.mp occurs with rfl | rfl
    · obtain rfl := (Tree.mem_postOrder_of_leaf rfl).mp within
      decide
    · obtain rfl := (Tree.mem_postOrder_of_leaf rfl).mp within
      decide

/-- The renaming of both aliases in the selection. -/
def bothRenamed : Renaming :=
  (Renaming.empty.insert ⟨"q"⟩ ⟨"t"⟩).insert ⟨"p"⟩ ⟨"u"⟩

theorem target?_bothRenamed {source target : Alias} (found : bothRenamed.target? source = some target) :
    target = ⟨"u"⟩ ∨ target = ⟨"t"⟩ := by
  rw [bothRenamed, Renaming.target?_insert, Renaming.target?_insert] at found
  split at found
  · exact .inl (Option.some.inj found).symm
  split at found
  · exact .inr (Option.some.inj found).symm
  · simp [Renaming.empty, Renaming.target?] at found

theorem outerComparison_uncaptured : outerComparison.memo.NoCapture bothRenamed [⟨1⟩] := by
  intro id _ reference found member present source target renamed bound
  obtain ⟨rfl, rfl⟩ | ⟨rfl, rfl⟩ := outerComparison_cases found
  · obtain rfl := List.mem_singleton.mp present
    obtain ⟨quantifier, input, -⟩ := bound
    cases input
  · obtain rfl := List.mem_singleton.mp present
    obtain rfl := binds_comparison.mp bound
    exact (target?_bothRenamed renamed).elim (by decide) (by decide)

/-- Renaming the outer alias frees the one that the selection binds. -/
theorem renameCorrelations_frees_bound_alias :
    outerComparison.memo.Grounded [⟨1⟩] ∧ outerComparison.Allocated ∧ outerComparison.Settled ∧
      outerComparison.memo.NoCapture bothRenamed [⟨1⟩] ∧
      ∃ result after before later,
        renameCorrelations bothRenamed false [⟨1⟩] outerComparison = .ok [result] after ∧
        outerComparison.memo.correlatedTo ⟨1⟩ = .ok before ∧ after.memo.correlatedTo result = .ok later ∧
        ⟨"q"⟩ ∉ before ∧ bothRenamed.apply ⟨"q"⟩ ∈ later ∧ ¬ bothRenamed.Images before later := by
  refine ⟨outerComparison_grounded, outerComparison_allocated, outerComparison_settled,
    outerComparison_uncaptured, ?_⟩
  obtain ⟨result, after, before, later, ran, found, foundLater, correlated, images⟩ :=
    renameCorrelations_images_iff bothRenamed ⟨1⟩ outerComparison outerComparison_grounded
      outerComparison_allocated outerComparison_settled outerComparison_uncaptured
  obtain ⟨known, again, described⟩ := Memo.correlatedTo_ok outerComparison_grounded
  obtain rfl := Except.ok.inj (found.symm.trans again)
  have outer {symbol : Alias} : symbol ∈ before ↔ symbol = ⟨"p"⟩ :=
    (described symbol).trans outerComparison_free
  have rewritten : outerComparison.memo.Rewritten bothRenamed ⟨1⟩ ⟨"q"⟩ := by
    refine .own ⟨⟨"p"⟩, outerComparison_free.mpr rfl, ?_⟩ outerComparison_comparison (List.mem_singleton_self _)
      (mem_ownCorrelations_comparison.mpr (.inl rfl)) ?_
    · simp [bothRenamed, Renaming.renames, Renaming.insert]
    · simp [bothRenamed, Renaming.renames, Renaming.insert]
  refine ⟨result, after, before, later, ran, found, foundLater, ?_, ?_, ?_⟩
  · rw [outer]
    decide
  · exact (correlated _).mpr (.inr ⟨_, rewritten, rfl⟩)
  · intro exact
    obtain ⟨free, present, same⟩ := images.mp exact _ rewritten
    obtain rfl := outer.mp present
    simp [bothRenamed, Renaming.apply, Renaming.target?_insert] at same

end QueryOptimizer
