import QueryOptimizer.Memo.Renaming
import QueryOptimizer.Proofs.Memo.Correlation
import QueryOptimizer.Proofs.Tree.Renaming

/-!
Renaming the aliases that a graph of references is correlated to: what every reference and every member
becomes, along an order that has inputs first.
-/
namespace QueryOptimizer

/-- Relational expressions that are renamed as documented: renaming always returns, over the given
inputs. Unless values are simplified, the result refers to the new names of what the expression refers
to, if the identities in the expression were handed out before. -/
class LawfulRelationalExpression (ε : Type) [RelationalExpression ε] where
  Allocated : Supply → ε → Prop
  rename_draws : ∀ (names : Renaming) (simplifyValues : Bool) (inputs : List Quantifier) (start : Supply)
    (expression : ε), inputs.length = (RelationalExpression.quantifiers expression).length →
    Draws (RelationalExpression.rename names simplifyValues inputs expression) start fun renamed =>
      RelationalExpression.quantifiers renamed = inputs ∧
        (simplifyValues = false → Allocated start expression →
          names.Images (RelationalExpression.ownCorrelations expression)
            (RelationalExpression.ownCorrelations renamed))

/-- Relational expressions whose renaming does nothing to the supply but draw from it, whether it returns
or fails. -/
class DrawingExpression (ε : Type) [RelationalExpression ε] : Prop where
  rename_draws : ∀ (names : Renaming) (simplifyValues : Bool) (inputs : List Quantifier) (expression : ε)
    (supply : Supply), inputs.length = (RelationalExpression.quantifiers expression).length →
    Ends (RelationalExpression.rename names simplifyValues inputs expression) supply
      (fun _ after => supply.allocated ≤ after.allocated) (fun _ after => supply.allocated ≤ after.allocated)

instance {ε : Type} [RelationalExpression ε] [LawfulRelationalExpression ε] : DrawingExpression ε where
  rename_draws names simplifyValues inputs expression supply size :=
    (LawfulRelationalExpression.rename_draws names simplifyValues inputs supply expression size supply
      (Nat.le_refl _)).mono (fun _ _ outcome => outcome.1) fun _ _ absurdity => absurdity.elim

variable {ε : Type} [RelationalExpression ε]

/-- What a visited reference has become; any other is left as it is. -/
def Renamed.becomes (renamed : Renamed) (id : ReferenceId) : ReferenceId :=
  renamed[id]?.getD id

theorem Renamed.becomes_insert_self (renamed : Renamed) (id new : ReferenceId) :
    Renamed.becomes (renamed.insert id new) id = new := by
  simp [becomes]

theorem Renamed.becomes_insert_of_ne (renamed : Renamed) {id other : ReferenceId} (different : id ≠ other)
    (new : ReferenceId) : Renamed.becomes (renamed.insert id new) other = renamed.becomes other := by
  simp only [becomes, Std.ExtTreeMap.getElem?_insert, Std.LawfulEqOrd.compare_eq_iff_eq, if_neg different]

/-- The inputs of an expression over what their references have become. -/
def movedInputs (becomes : ReferenceId → ReferenceId) (expression : ε) : List Quantifier :=
  (RelationalExpression.quantifiers expression).map fun quantifier =>
    quantifier.rangingOver (becomes quantifier.rangesOver)

/-- The expression refers to no source itself, and all its inputs stay what they are. -/
def Untouched (names : Renaming) (becomes : ReferenceId → ReferenceId) (expression : ε) : Prop :=
  names.renamesAny (RelationalExpression.ownCorrelations expression) = false ∧
    ∀ quantifier ∈ RelationalExpression.quantifiers expression,
      becomes quantifier.rangesOver = quantifier.rangesOver

theorem movedInputs_eq_iff {becomes : ReferenceId → ReferenceId} {expression : ε} :
    movedInputs becomes expression = RelationalExpression.quantifiers expression ↔
      ∀ quantifier ∈ RelationalExpression.quantifiers expression,
        becomes quantifier.rangesOver = quantifier.rangesOver := by
  rw [movedInputs]
  induction RelationalExpression.quantifiers expression with
  | nil => simp
  | cons quantifier rest ih =>
    rw [List.map_cons, List.cons_eq_cons, ih, List.forall_mem_cons]
    refine and_congr_left' ?_
    constructor
    · exact congrArg Quantifier.rangesOver
    · intro same
      rw [same]
      rfl

theorem mapM_renameQuantifier {renamed : Renamed} (quantifiers : List Quantifier)
    (visited : ∀ quantifier ∈ quantifiers, ∃ reference, renamed[quantifier.rangesOver]? = some reference) :
    quantifiers.mapM (renameQuantifier renamed) =
      .ok (quantifiers.map fun quantifier =>
        quantifier.rangingOver (renamed.becomes quantifier.rangesOver)) := by
  induction quantifiers with
  | nil => rfl
  | cons quantifier rest ih =>
    obtain ⟨reference, found⟩ := visited quantifier (by simp)
    have head : renameQuantifier renamed quantifier =
        .ok (quantifier.rangingOver (renamed.becomes quantifier.rangesOver)) := by
      simp only [renameQuantifier, Renamed.becomes, found, Option.getD_some]
    rw [List.mapM_cons, head, ih fun other member => visited other (by simp [member])]
    rfl

/-- What renaming makes of a member: the member itself if it is untouched, and otherwise a new member
with the renamed expression. -/
inductive MemberBecomes (names : Renaming) (simplifies : Bool) (becomes : ReferenceId → ReferenceId)
    (start : Supply) (member : Member ε) : Member ε → Prop where
  | kept : Untouched names becomes member.expression →
      MemberBecomes names simplifies becomes start member member
  | renamed {id : NodeId} : ¬ Untouched names becomes member.expression →
      start.allocated ≤ before.allocated →
      RelationalExpression.rename names simplifies (movedInputs becomes member.expression)
        member.expression before = .ok expression after →
      start.allocated ≤ id.index → MemberBecomes names simplifies becomes start member ⟨id, expression⟩

/-- A member is kept or gets an identity that is handed out between two times. -/
def KeptOrNew (before after : Supply) (member image : Member ε) : Prop :=
  image = member ∨ before.allocated ≤ image.id.index ∧ image.id.index < after.allocated

omit [RelationalExpression ε] in
theorem KeptOrNew.widen {before after earlier later : Supply} {member image : Member ε}
    (known : KeptOrNew before after member image) (less : earlier.allocated ≤ before.allocated)
    (more : after.allocated ≤ later.allocated) : KeptOrNew earlier later member image :=
  known.imp_right fun ⟨new, below⟩ => ⟨less.trans new, Nat.lt_of_lt_of_le below more⟩

omit [RelationalExpression ε] in
/-- What two members become one after the other has different identities. -/
theorem KeptOrNew.id_ne {before middle after : Supply} {member image other otherImage : Member ε}
    (known : KeptOrNew before middle member image) (later : KeptOrNew middle after other otherImage)
    (more : before.allocated ≤ middle.allocated) (memberBound : member.id.index < before.allocated)
    (otherBound : other.id.index < before.allocated) (different : member.id ≠ other.id) :
    image.id ≠ otherImage.id := by
  intro same
  have indices := congrArg NodeId.index same
  rcases known with rfl | ⟨new, below⟩
  · rcases later with rfl | ⟨new, -⟩
    · exact different same
    · omega
  · rcases later with rfl | ⟨new, -⟩
    · omega
    · omega

omit [RelationalExpression ε] in
/-- A computation of an expression changes nothing but the supply. -/
theorem MemoM.ofExpression_ends {α : Type} (computation : EStateM Interruption Supply α) (state : MemoState ε) :
    Ends (MemoM.ofExpression computation) state
      (fun result after => computation state.supply = .ok result after.supply ∧
        after = { state with supply := after.supply })
      (fun error after => ∃ interruption, error = .interrupted interruption ∧
        computation state.supply = .error interruption after.supply ∧
          after = { state with supply := after.supply }) := by
  unfold Ends ofExpression
  cases computation state.supply with
  | ok => exact ⟨rfl, rfl⟩
  | error => exact ⟨_, rfl, rfl, rfl⟩

variable {names : Renaming} {simplifies : Bool} {renamed : Renamed}

/-- All that renaming a member can come to, once its inputs were visited. The memo stays as it is. -/
theorem renameMember_cases {reference : ReferenceId} (member : Member ε)
    (visited : ∀ quantifier ∈ RelationalExpression.quantifiers member.expression,
      ∃ reference, renamed[quantifier.rangesOver]? = some reference) (state : MemoState ε) :
    Ends (renameMember names simplifies renamed reference member) state
      (fun image after => after.memo = state.memo ∧
        (Untouched names renamed.becomes member.expression ∧ image = member ∧ after.supply = state.supply ∨
          ¬ Untouched names renamed.becomes member.expression ∧ ∃ expression later,
            RelationalExpression.rename names simplifies (movedInputs renamed.becomes member.expression)
              member.expression state.supply = .ok expression later ∧
            image = ⟨later.draw.1, expression⟩ ∧ after.supply = later.draw.2))
      (fun error after => after.memo = state.memo ∧ ∃ interruption, error = .interrupted interruption ∧
        RelationalExpression.rename names simplifies (movedInputs renamed.becomes member.expression)
          member.expression state.supply = .error interruption after.supply) := by
  have inputs : (RelationalExpression.quantifiers member.expression).mapM (renameQuantifier renamed) =
      .ok (movedInputs renamed.becomes member.expression) := mapM_renameQuantifier _ visited
  dsimp only [renameMember]
  rw [inputs]
  refine .bind (.pure ?_)
  split
  · rename_i same
    exact .pure ⟨rfl, .inl ⟨⟨by simpa using same.2, movedInputs_eq_iff.mp same.1⟩, rfl, rfl⟩⟩
  · rename_i touched
    refine .bind ((MemoM.ofExpression_ends _ state).mono ?_ ?_)
    · intro expression between outcome
      obtain ⟨found, same⟩ := outcome
      rw [same]
      refine .bind (.of_eq rfl (.bind (.of_eq rfl (.pure ⟨rfl, .inr ⟨?_, expression, _, found, rfl, rfl⟩⟩))))
      intro untouched
      exact touched ⟨movedInputs_eq_iff.mpr untouched.2, by simpa using untouched.1⟩
    · intro error after outcome
      obtain ⟨interruption, rfl, failed, same⟩ := outcome
      exact ⟨by rw [same], interruption, rfl, failed⟩

section Drawing
variable [DrawingExpression ε]

/-- Renaming a member draws identities, and what it makes of the member is named by one of them, unless it is
the member itself. -/
theorem renameMember_ends {reference : ReferenceId} (member : Member ε)
    (visited : ∀ quantifier ∈ RelationalExpression.quantifiers member.expression,
      ∃ reference, renamed[quantifier.rangesOver]? = some reference) (state : MemoState ε) :
    Ends (renameMember names simplifies renamed reference member) state
      (fun image after => after.memo = state.memo ∧ state.supply.allocated ≤ after.supply.allocated ∧
        MemberBecomes names simplifies renamed.becomes state.supply member image ∧
        KeptOrNew state.supply after.supply member image)
      (fun _ after => after.memo = state.memo ∧ state.supply.allocated ≤ after.supply.allocated) := by
  have draws := DrawingExpression.rename_draws names simplifies (movedInputs renamed.becomes member.expression)
    member.expression state.supply (List.length_map _)
  refine (renameMember_cases member visited state).mono ?_ ?_
  · intro image after outcome
    obtain ⟨same, ⟨untouched, rfl, kept⟩ | ⟨touched, expression, later, found, rfl, drawn⟩⟩ := outcome
    · exact ⟨same, kept ▸ Nat.le_refl _, .kept untouched, .inl rfl⟩
    · have more : state.supply.allocated ≤ later.allocated := draws.at_ok found
      rw [drawn]
      exact ⟨same, Nat.le_succ_of_le more, .renamed touched (Nat.le_refl _) found more,
        .inr ⟨more, Nat.lt_succ_self _⟩⟩
  · intro error after outcome
    obtain ⟨same, interruption, rfl, failed⟩ := outcome
    exact ⟨same, draws.at_error failed⟩

end Drawing

theorem MemberBecomes.mono {becomes : ReferenceId → ReferenceId} {start earlier : Supply}
    {member image : Member ε} (become : MemberBecomes names simplifies becomes start member image)
    (less : earlier.allocated ≤ start.allocated) :
    MemberBecomes names simplifies becomes earlier member image := by
  cases become with
  | kept untouched => exact .kept untouched
  | renamed touched later found new => exact .renamed touched (less.trans later) found (less.trans new)

/-- Only an untouched member stays the same one. -/
theorem MemberBecomes.untouched_of_id_eq {becomes : ReferenceId → ReferenceId} {start : Supply}
    {member image : Member ε} (become : MemberBecomes names simplifies becomes start member image)
    (bound : member.id.index < start.allocated) (same : image.id = member.id) :
    Untouched names becomes member.expression := by
  cases become with
  | kept untouched => exact untouched
  | renamed _ _ _ new =>
    rw [← same] at bound
    exact absurd bound (Nat.not_lt.mpr new)

theorem MemberBecomes.eq_iff {becomes : ReferenceId → ReferenceId} {start : Supply}
    {member image : Member ε} (become : MemberBecomes names simplifies becomes start member image)
    (bound : member.id.index < start.allocated) :
    image = member ↔ Untouched names becomes member.expression := by
  constructor
  · intro same
    exact become.untouched_of_id_eq bound (congrArg Member.id same)
  · intro untouched
    cases become with
    | kept => rfl
    | renamed touched => exact absurd untouched touched

/-- What all members become: different members become different members. -/
structure MembersBecome (names : Renaming) (simplifies : Bool) (becomes : ReferenceId → ReferenceId)
    (start : Supply) (members : List (Member ε)) (image : Member ε → Member ε) : Prop where
  each : ∀ member ∈ members, MemberBecomes names simplifies becomes start member (image member)
  distinct : ∀ one ∈ members, ∀ other ∈ members, (image one).id = (image other).id → one = other

theorem MembersBecome.mono {becomes : ReferenceId → ReferenceId} {start earlier : Supply}
    {members : List (Member ε)} {image : Member ε → Member ε}
    (become : MembersBecome names simplifies becomes start members image)
    (less : earlier.allocated ≤ start.allocated) :
    MembersBecome names simplifies becomes earlier members image :=
  ⟨fun member present => (become.each member present).mono less, become.distinct⟩

/-- A member joins others that have become different members. -/
theorem MemberBecomes.cons {becomes : ReferenceId → ReferenceId} {start : Supply} {member new : Member ε}
    {rest : List (Member ε)} {image : Member ε → Member ε}
    (become : MemberBecomes names simplifies becomes start member new)
    (others : MembersBecome names simplifies becomes start rest image)
    (different : ∀ other ∈ rest, member.id ≠ other.id) (apart : ∀ other ∈ rest, new.id ≠ (image other).id) :
    ∃ joined, joined member = new ∧ (∀ other ∈ rest, joined other = image other) ∧
      MembersBecome names simplifies becomes start (member :: rest) joined := by
  let joined (other : Member ε) : Member ε := if other.id = member.id then new else image other
  have atHead : joined member = new := if_pos rfl
  have atRest : ∀ other ∈ rest, joined other = image other := fun other present =>
    if_neg (different other present).symm
  refine ⟨joined, atHead, atRest, ?_, ?_⟩
  · intro other present
    rcases List.mem_cons.mp present with rfl | later
    · rwa [atHead]
    · rw [atRest other later]
      exact others.each other later
  · intro one first other second same
    rcases List.mem_cons.mp first with rfl | oneLater
    · rcases List.mem_cons.mp second with rfl | otherLater
      · rfl
      · rw [atHead, atRest other otherLater] at same
        exact False.elim (apart other otherLater same)
    · rcases List.mem_cons.mp second with rfl | otherLater
      · rw [atHead, atRest one oneLater] at same
        exact False.elim (apart one oneLater same.symm)
      · rw [atRest one oneLater, atRest other otherLater] at same
        exact others.distinct one oneLater other otherLater same

section Drawing
variable [DrawingExpression ε]

/-- Members with different identities that were handed out are renamed to members with different
identities. -/
theorem renameMembers_ends {reference : ReferenceId} (members : List (Member ε)) (state : MemoState ε)
    (distinct : members.Pairwise fun one other => one.id ≠ other.id)
    (bounds : ∀ member ∈ members, member.id.index < state.supply.allocated)
    (visited : ∀ member ∈ members, ∀ quantifier ∈ RelationalExpression.quantifiers member.expression,
      ∃ reference, renamed[quantifier.rangesOver]? = some reference) :
    Ends (members.mapM fun member => do
        return (member, ← renameMember names simplifies renamed reference member)) state
      (fun pairs after => after.memo = state.memo ∧ state.supply.allocated ≤ after.supply.allocated ∧
        ∃ image, pairs = members.map (fun member => (member, image member)) ∧
          MembersBecome names simplifies renamed.becomes state.supply members image ∧
          ∀ member ∈ members, KeptOrNew state.supply after.supply member (image member))
      (fun _ after => after.memo = state.memo ∧ state.supply.allocated ≤ after.supply.allocated) := by
  induction members generalizing state with
  | nil => exact .pure ⟨rfl, Nat.le_refl _, id, rfl, ⟨by simp, by simp⟩, by simp⟩
  | cons member rest ih =>
    obtain ⟨others, distinct⟩ := List.pairwise_cons.mp distinct
    rw [List.mapM_cons]
    refine .bind (.bind ((renameMember_ends member (visited member (by simp)) state).imp ?_))
    intro new between outcome
    obtain ⟨sameMemo, more, becomesNew, range⟩ := outcome
    refine .pure (.bind ((ih between distinct ?_ ?_).mono ?_ ?_))
    · exact fun other present => Nat.lt_of_lt_of_le (bounds other (by simp [present])) more
    · exact fun other present => visited other (by simp [present])
    · intro pairs after outcome
      obtain ⟨keptMemo, further, image, rfl, becomesRest, ranges⟩ := outcome
      have apart : ∀ other ∈ rest, new.id ≠ (image other).id := fun other present =>
        range.id_ne (ranges other present) more (bounds member (by simp)) (bounds other (by simp [present]))
          (others other present)
      obtain ⟨joined, atHead, atRest, become⟩ := becomesNew.cons (becomesRest.mono more) others apart
      refine .pure ⟨keptMemo.trans sameMemo, more.trans further, joined, ?_, become, ?_⟩
      · rw [List.map_cons, atHead]
        exact congrArg _ (List.map_congr_left fun other present => by rw [atRest other present])
      · intro other present
        rcases List.mem_cons.mp present with rfl | later
        · rw [atHead]
          exact range.widen (Nat.le_refl _) further
        · rw [atRest other later]
          exact (ranges other later).widen more (Nat.le_refl _)
    · intro _ after outcome
      obtain ⟨keptMemo, further⟩ := outcome
      exact ⟨keptMemo.trans sameMemo, more.trans further⟩

/-- A member that is not untouched makes the reference a new one. -/
theorem renameReference_ends {id : ReferenceId} {reference : Reference ε} (state : MemoState ε)
    (found : state.memo.get? id = some reference)
    (bounds : ∀ member ∈ reference.members, member.id.index < state.supply.allocated)
    (visited : ∀ member ∈ reference.members,
      ∀ quantifier ∈ RelationalExpression.quantifiers member.expression,
        ∃ reference, renamed[quantifier.rangesOver]? = some reference)
    (touched : ∃ member ∈ reference.members, ¬ Untouched names renamed.becomes member.expression) :
    Ends (renameReference names simplifies renamed id) state
      (fun new after => state.supply.allocated ≤ after.supply.allocated ∧ ∃ image,
        MembersBecome names simplifies renamed.becomes state.supply reference.members image ∧
          (∀ member ∈ reference.members, KeptOrNew state.supply after.supply member (image member)) ∧
          state.memo.insertMoved reference image = (new, after.memo))
      (fun _ after => after.memo = state.memo ∧ state.supply.allocated ≤ after.supply.allocated) := by
  dsimp only [renameReference]
  refine .bind (.of_eq rfl ?_)
  rw [Memo.find_of_get? found]
  refine .bind (.pure (.bind ((renameMembers_ends reference.members state (distinctMembers_pairwise _) bounds
    visited).imp ?_)))
  intro pairs after outcome
  obtain ⟨sameMemo, more, image, rfl, become, ranges⟩ := outcome
  have changed : ¬ ((reference.members.map fun member => (member, image member)).all fun pair =>
      sameNode pair.1 pair.2) = true := by
    intro same
    obtain ⟨member, present, moves⟩ := touched
    have known := List.all_eq_true.mp same (member, image member) (List.mem_map_of_mem present)
    exact moves ((become.each member present).untouched_of_id_eq (bounds member present)
      (sameNode_iff.mp known).symm)
  rw [if_neg changed]
  have images (test : Member ε → Bool) :
      ((reference.members.map fun member => (member, image member)).filter fun pair => test pair.1).map Prod.snd =
        (reference.members.filter test).map image := by
    rw [List.filter_map, List.map_map]
    rfl
  refine .of_eq rfl ⟨more, image, become, ranges, ?_⟩
  rw [images, images, ← sameMemo]
  rfl

end Drawing

section Congruence
variable {becomes other : ReferenceId → ReferenceId} {start : Supply}

/-- What a member becomes depends on what its inputs become. -/
theorem MemberBecomes.congr {member image : Member ε}
    (become : MemberBecomes names simplifies becomes start member image)
    (same : ∀ quantifier ∈ RelationalExpression.quantifiers member.expression,
      other quantifier.rangesOver = becomes quantifier.rangesOver) :
    MemberBecomes names simplifies other start member image := by
  have inputs : movedInputs other member.expression = movedInputs becomes member.expression :=
    List.map_congr_left fun quantifier input => by rw [same quantifier input]
  have untouched : Untouched names other member.expression ↔ Untouched names becomes member.expression := by
    rw [Untouched, Untouched, ← movedInputs_eq_iff, inputs, movedInputs_eq_iff]
  cases become with
  | kept stays => exact .kept (untouched.mpr stays)
  | renamed touched later found new => exact .renamed (mt untouched.mp touched) later (inputs ▸ found) new

theorem MembersBecome.congr {members : List (Member ε)} {image : Member ε → Member ε}
    (become : MembersBecome names simplifies becomes start members image)
    (same : ∀ member ∈ members, ∀ quantifier ∈ RelationalExpression.quantifiers member.expression,
      other quantifier.rangesOver = becomes quantifier.rangesOver) :
    MembersBecome names simplifies other start members image :=
  ⟨fun member present => (become.each member present).congr (same member present), become.distinct⟩

end Congruence

/-- What a reference of the memo at the start has become in a later memo. It stays what it is if no
source is free in it, and is a new reference otherwise. -/
inductive ReferenceBecomes (names : Renaming) (simplifies : Bool) (becomes : ReferenceId → ReferenceId)
    (start : MemoState ε) (later : Memo ε) (id : ReferenceId) : Prop where
  | kept : start.memo.get? id = some reference →
      (∀ symbol, start.memo.Free id symbol → names.renames symbol = false) → becomes id = id →
      ReferenceBecomes names simplifies becomes start later id
  | renamed : start.memo.get? id = some reference → start.memo.Free id symbol →
      names.renames symbol = true →
      MembersBecome names simplifies becomes start.supply reference.members image →
      start.memo.get? (becomes id) = none →
      later.get? (becomes id) = some (reference.moved (becomes id) image) →
      ReferenceBecomes names simplifies becomes start later id

namespace ReferenceBecomes
variable {becomes other : ReferenceId → ReferenceId} {start : MemoState ε} {later : Memo ε} {id : ReferenceId}

/-- A reference stays what it is exactly if no source is free in it. -/
theorem eq_iff (become : ReferenceBecomes names simplifies becomes start later id) :
    becomes id = id ↔ ∀ symbol, start.memo.Free id symbol → names.renames symbol = false := by
  cases become with
  | kept _ none same => exact iff_of_true same none
  | renamed found free source _ new =>
    refine iff_of_false ?_ fun none => ?_
    · intro same
      rw [same, found] at new
      cases new
    · rw [none _ free] at source
      cases source

/-- What a reference becomes stays so while the memo grows. -/
theorem mono (become : ReferenceBecomes names simplifies becomes start later id) {further : Memo ε}
    (grown : ∀ id reference, later.get? id = some reference → further.get? id = some reference)
    (same : other id = becomes id)
    (inputs : ∀ input, start.memo.RangesOver id input → other input = becomes input) :
    ReferenceBecomes names simplifies other start further id := by
  cases become with
  | kept found none stays => exact .kept found none (same.trans stays)
  | renamed found free source members new present =>
    rw [← same] at new present
    refine .renamed found free source (members.congr ?_) new (grown _ _ present)
    intro member listed quantifier input
    exact inputs _ (.of_quantifier found listed input)

end ReferenceBecomes

/-- The supply hands out none of the identities of members again. -/
def MemoState.Allocated (state : MemoState ε) : Prop :=
  ∀ id reference, state.memo.get? id = some reference →
    ∀ member ∈ reference.members, member.id.index < state.supply.allocated

omit [RelationalExpression ε] in
/-- Nothing is used up by what leaves the memo as it is and only draws identities. -/
theorem MemoState.Allocated.mono {start state : MemoState ε} (allocated : start.Allocated)
    (same : state.memo = start.memo) (more : start.supply.allocated ≤ state.supply.allocated) :
    state.Allocated := by
  intro id reference found member present
  rw [same] at found
  exact Nat.lt_of_lt_of_le (allocated id reference found member present) more

omit [RelationalExpression ε] in
/-- A new reference keeps to identities that were handed out, if its members do. -/
theorem MemoState.Allocated.insert {start state : MemoState ε} (allocated : start.Allocated)
    {stage : PlannerStage} {exploratory finals : List (Member ε)} {id : ReferenceId}
    (inserted : start.memo.insert stage exploratory finals = (id, state.memo))
    (more : start.supply.allocated ≤ state.supply.allocated)
    (bounds : ∀ member ∈ exploratory ++ finals, member.id.index < state.supply.allocated) : state.Allocated := by
  intro other reference found member present
  have memo : state.memo = (start.memo.insert stage exploratory finals).2 := (congrArg Prod.snd inserted).symm
  rw [memo, Memo.get?_insert] at found
  split at found
  · obtain rfl := Option.some.inj found
    exact bounds member (mem_of_mem_distinctMembers present)
  · exact Nat.lt_of_lt_of_le (allocated other reference found member present) more

/-- The state after the references of `before` were visited. -/
structure Visited (names : Renaming) (simplifies : Bool) (start : MemoState ε) (before : List ReferenceId)
    (renamed : Renamed) (state : MemoState ε) : Prop where
  memo : ∀ id reference, start.memo.get? id = some reference → state.memo.get? id = some reference
  supply : start.supply.allocated ≤ state.supply.allocated
  visited : ∀ id ∈ before, ∃ new, renamed[id]? = some new
  closed : ∀ id ∈ before, ∀ input, start.memo.RangesOver id input → input ∈ before
  each : ∀ id ∈ before, ReferenceBecomes names simplifies renamed.becomes start state.memo id
  distinct : ∀ one ∈ before, ∀ other ∈ before, renamed.becomes one = renamed.becomes other → one = other
  allocated : state.Allocated
  /-- Every reference that has become another one has added one. -/
  size : state.memo.size = start.memo.size + before.countP fun id => renamed.becomes id ≠ id

namespace Visited
variable {start state : MemoState ε} {before : List ReferenceId} {id : ReferenceId}

/-- In a reference with a free source, some member is not untouched. -/
theorem touched (visited : Visited names simplifies start before renamed state)
    (inputs : ∀ input, start.memo.RangesOver id input → input ∈ before) {reference : Reference ε}
    (found : start.memo.get? id = some reference) {symbol : Alias} (free : start.memo.Free id symbol)
    (source : names.renames symbol = true) :
    ∃ member ∈ reference.members, ¬ Untouched names renamed.becomes member.expression := by
  obtain ⟨member, present, occurs, -⟩ := (Memo.free_iff found).mp free
  refine ⟨member, present, ?_⟩
  intro untouched
  rcases occurs with refers | ⟨quantifier, input, below⟩
  · rw [Renaming.renamesAny_eq_false_iff.mp untouched.1 symbol refers] at source
    cases source
  · have ranges := inputs quantifier.rangesOver (.of_quantifier found present input)
    rw [(visited.each _ ranges).eq_iff.mp (untouched.2 quantifier input) symbol below] at source
    cases source

/-- Every reference is visited into one that is in the memo. -/
theorem becomes_known (visited : Visited names simplifies start before renamed state) (member : id ∈ before) :
    ∃ reference, state.memo.get? (renamed.becomes id) = some reference := by
  cases visited.each id member with
  | kept found _ stays => exact ⟨_, stays ▸ visited.memo id _ found⟩
  | renamed _ _ _ _ _ present => exact ⟨_, present⟩

section Next
variable (visited : Visited names simplifies start before renamed state) (absent : id ∉ before)
variable (inputs : ∀ input, start.memo.RangesOver id input → input ∈ before)
variable {reference : Reference ε} {correlations : Correlations} {correlated : AliasSet}
include visited absent inputs

/-- Another reference joins those that were visited. -/
theorem visit {new : ReferenceId} {after : MemoState ε}
    (grown : ∀ id reference, state.memo.get? id = some reference → after.memo.get? id = some reference)
    (more : state.supply.allocated ≤ after.supply.allocated)
    (become : ReferenceBecomes names simplifies (Renamed.becomes (renamed.insert id new)) start after.memo id)
    (distinct : ∀ one ∈ before, renamed.becomes one ≠ new) (allocated : after.Allocated)
    (size : after.memo.size = state.memo.size + if new = id then 0 else 1) :
    Visited names simplifies start (before ++ [id]) (renamed.insert id new) after := by
  have atNew := renamed.becomes_insert_self id new
  have atOld : ∀ other ∈ before, Renamed.becomes (renamed.insert id new) other = renamed.becomes other :=
    fun other member => renamed.becomes_insert_of_ne (by rintro rfl; exact absent member) new
  have either {other : ReferenceId} (member : other ∈ before ++ [id]) : other ∈ before ∨ other = id := by
    rwa [List.mem_append, List.mem_singleton] at member
  constructor
  case memo => exact fun other reference found => grown other reference (visited.memo other reference found)
  case supply => exact visited.supply.trans more
  case visited =>
    intro other member
    rw [Std.ExtTreeMap.getElem?_insert]
    split
    · exact ⟨new, rfl⟩
    · rename_i different
      rcases either member with old | rfl
      · exact visited.visited other old
      · exact absurd (Std.LawfulEqOrd.compare_eq_iff_eq.mpr rfl) different
  case closed =>
    intro other member input ranges
    rcases either member with old | rfl
    · exact List.mem_append_left _ (visited.closed other old input ranges)
    · exact List.mem_append_left _ (inputs input ranges)
  case each =>
    intro other member
    rcases either member with old | rfl
    · exact (visited.each other old).mono grown (atOld other old)
        fun input ranges => atOld input (visited.closed other old input ranges)
    · exact become
  case distinct =>
    intro one first other second same
    rcases either first with oneOld | rfl
    · rcases either second with otherOld | rfl
      · rw [atOld one oneOld, atOld other otherOld] at same
        exact visited.distinct one oneOld other otherOld same
      · rw [atOld one oneOld, atNew] at same
        exact False.elim (distinct one oneOld same)
    · rcases either second with otherOld | rfl
      · rw [atNew, atOld other otherOld] at same
        exact False.elim (distinct other otherOld same.symm)
      · rfl
  case allocated => exact allocated
  case size =>
    have earlier : before.countP (fun other => Renamed.becomes (renamed.insert id new) other ≠ other) =
        before.countP fun other => renamed.becomes other ≠ other :=
      List.countP_congr fun other member => by rw [atOld other member]
    rw [size, visited.size, List.countP_append, earlier, List.countP_singleton, atNew, Nat.add_assoc]
    by_cases same : new = id <;> simp [same]

/-- Visiting a reference in which no source is free. -/
theorem keeps (found : start.memo.get? id = some reference)
    (none : ∀ symbol, start.memo.Free id symbol → names.renames symbol = false) :
    Visited names simplifies start (before ++ [id]) (renamed.insert id id) state := by
  refine visited.visit absent inputs (fun _ _ known => known) (Nat.le_refl _)
    (.kept found none (renamed.becomes_insert_self id id)) ?_ visited.allocated (by rw [if_pos rfl]; rfl)
  intro one member same
  cases visited.each one member with
  | kept _ _ stays => exact absent (stays.symm.trans same ▸ member)
  | renamed _ _ _ _ new =>
    rw [same, found] at new
    cases new

variable [DrawingExpression ε]

/-- Visiting a reference in which a source is free. -/
theorem replaces (found : start.memo.get? id = some reference)
    (bounds : ∀ member ∈ reference.members, member.id.index < start.supply.allocated)
    {symbol : Alias} (free : start.memo.Free id symbol) (source : names.renames symbol = true) :
    Ends (renameReference names simplifies renamed id) state
      (fun new after => Visited names simplifies start (before ++ [id]) (renamed.insert id new) after)
      (fun _ after => after.Allocated) := by
  have ranges : ∀ member ∈ reference.members,
      ∀ quantifier ∈ RelationalExpression.quantifiers member.expression, quantifier.rangesOver ∈ before :=
    fun member present quantifier input => inputs quantifier.rangesOver
      (.of_quantifier found present input)
  refine (renameReference_ends state (visited.memo id reference found)
    (fun member present => Nat.lt_of_lt_of_le (bounds member present) visited.supply)
    (fun member present quantifier input => visited.visited _ (ranges member present quantifier input))
    (visited.touched inputs found free source)).mono ?_ fun _ after ⟨same, more⟩ => visited.allocated.mono same more
  intro new after outcome
  obtain ⟨more, image, become, kept, inserted⟩ := outcome
  have memo : after.memo = (state.memo.insertMoved reference image).2 := (congrArg Prod.snd inserted).symm
  have atEnd : new = ⟨state.memo.ids.allocated⟩ := (congrArg Prod.fst inserted).symm
  have grown : ∀ other reference, state.memo.get? other = some reference → after.memo.get? other = some reference := by
    rw [memo]
    exact fun other reference known => Memo.get?_insert_old known
  have present : after.memo.get? new = some (reference.moved new image) := by
    rw [memo, show new = _ from (congrArg Prod.fst inserted).symm]
    exact Memo.get?_insertMoved _ _ _
  have unknown {other : ReferenceId} {known : Reference ε} (earlier : state.memo.get? other = some known) :
      other ≠ new := by
    rintro rfl
    have bound := Memo.index_lt_of_get? earlier
    rw [atEnd] at bound
    exact Nat.lt_irrefl _ bound
  have notBefore : start.memo.get? new = none := by
    cases known : start.memo.get? new with
    | none => rfl
    | some other => exact absurd rfl (unknown (visited.memo new other known))
  have atNew := renamed.becomes_insert_self id new
  have members : MembersBecome names simplifies (Renamed.becomes (renamed.insert id new)) start.supply
      reference.members image := by
    refine (become.mono visited.supply).congr ?_
    intro member listed quantifier input
    have earlier := ranges member listed quantifier input
    refine renamed.becomes_insert_of_ne ?_ new
    intro same
    rw [← same] at earlier
    exact absent earlier
  refine visited.visit absent inputs grown more
    (.renamed found free source members (by rwa [atNew]) (by rwa [atNew])) ?_ ?_ ?_
  · intro one member
    obtain ⟨other, known⟩ := visited.becomes_known member
    exact unknown known
  · refine visited.allocated.insert inserted more fun result listed => ?_
    obtain ⟨member, known, rfl⟩ : ∃ member ∈ reference.members, image member = result := by
      rcases List.mem_append.mp listed with explored | committed
      · obtain ⟨member, known, same⟩ := List.mem_map.mp explored
        exact ⟨member, List.mem_of_mem_filter known, same⟩
      · obtain ⟨member, known, same⟩ := List.mem_map.mp committed
        exact ⟨member, List.mem_of_mem_filter known, same⟩
    rcases kept member known with same | ⟨-, below⟩
    · rw [same]
      exact Nat.lt_of_lt_of_le (bounds member known) (visited.supply.trans more)
    · exact below
  · rw [memo, if_neg (unknown (visited.memo id reference found)).symm]
    exact Memo.size_insert _ _ _ _

/-- Visiting a reference whose free aliases are known. -/
theorem renameNext_ends (found : start.memo.get? id = some reference)
    (bounds : ∀ member ∈ reference.members, member.id.index < start.supply.allocated)
    (listed : correlations[id]? = some correlated)
    (described : ∀ symbol, symbol ∈ correlated ↔ start.memo.Free id symbol) :
    Ends (renameNext names simplifies correlations renamed id) state
      (fun later after => Visited names simplifies start (before ++ [id]) later after)
      (fun _ after => after.Allocated) := by
  dsimp only [renameNext]
  rw [listed]
  dsimp only
  split
  · rename_i affected
    obtain ⟨symbol, member, source⟩ := Renaming.renamesAny_iff.mp affected
    refine .bind ((visited.replaces absent inputs found bounds ((described symbol).mp member) source).imp ?_)
    exact fun new after joined => .pure joined
  · rename_i unaffected
    refine .pure (visited.keeps absent inputs found ?_)
    intro symbol free
    exact Renaming.renamesAny_eq_false_iff.mp (Bool.not_eq_true _ ▸ unaffected) symbol
      ((described symbol).mpr free)

end Next

/-- At the start nothing was visited. -/
theorem none_yet (names : Renaming) (simplifies : Bool) {state : MemoState ε} (allocated : state.Allocated) :
    Visited names simplifies state [] ∅ state where
  memo _ _ found := found
  supply := Nat.le_refl _
  visited _ member := by cases member
  closed _ member := by cases member
  each _ member := by cases member
  distinct _ member := by cases member
  allocated := allocated
  size := rfl

end Visited

omit [RelationalExpression ε] in
/-- What visited references have become can be looked up. -/
theorem lookUp_returns (ids : List ReferenceId)
    (visited : ∀ id ∈ ids, ∃ reference, renamed[id]? = some reference) (state : MemoState ε) :
    Returns (ids.mapM fun id => (match renamed[id]? with
      | some reference => return reference
      | none => throw (.missingRenaming id) : MemoM ε ReferenceId)) state fun results after =>
        after = state ∧ results = ids.map renamed.becomes := by
  induction ids with
  | nil => exact .pure ⟨rfl, rfl⟩
  | cons id rest ih =>
    obtain ⟨reference, found⟩ := visited id (by simp)
    have become : renamed.becomes id = reference := by
      simp only [Renamed.becomes, found, Option.getD_some]
    rw [List.mapM_cons, found]
    refine .bind (.pure (.bind ((ih fun other member => visited other (by simp [member])).imp ?_)))
    intro results after outcome
    obtain ⟨rfl, rfl⟩ := outcome
    exact .pure ⟨rfl, by rw [List.map_cons, become]⟩

/-- Over a grounded graph all references are visited in an order that has inputs first, with their free
aliases at hand. -/
theorem renameCorrelations_inOrder (names : Renaming) (simplifies : Bool) {ids : List ReferenceId}
    {state : MemoState ε} (grounded : state.memo.Grounded ids) :
    ∃ order correlations, order.Nodup ∧ (∀ id, id ∈ order ↔ state.memo.Reaches ids id) ∧
      DependencyOrder.Arranged state.memo.RangesOver [] order ∧ Recorded state.memo order correlations ∧
      renameCorrelations names simplifies ids state = (do
        let renamed ← order.foldlM (renameNext names simplifies correlations) ∅
        ids.mapM fun id =>
          match renamed[id]? with
          | some reference => return reference
          | none => throw (.missingRenaming id) : MemoM ε (List ReferenceId)) state := by
  obtain ⟨order, ordered, distinct, elements, arranged⟩ := Memo.topologicalOrder_ok grounded
  obtain ⟨correlations, found, recorded⟩ := Memo.correlationsInOrder_ok
    (fun id member => grounded.complete id ((elements id).mp member)) arranged
  refine ⟨order, correlations, distinct, elements, arranged, recorded, ?_⟩
  show (MemoM.ofExcept (state.memo.topologicalOrder ids) >>= _ : MemoM ε _) state = _
  rw [ordered]
  show (MemoM.ofExcept (state.memo.correlationsInOrder order) >>= _ : MemoM ε _) state = _
  rw [found]
  rfl

section Drawing
variable [DrawingExpression ε]

/-- Along an order that has inputs first, every reference is visited. -/
theorem renameInOrder_ends {start state : MemoState ε} {before order : List ReferenceId}
    {correlations : Correlations} (visited : Visited names simplifies start before renamed state)
    (allocated : start.Allocated) (distinct : (before ++ order).Nodup)
    (arranged : DependencyOrder.Arranged start.memo.RangesOver before order)
    (complete : ∀ id ∈ order, ∃ reference, start.memo.get? id = some reference)
    (recorded : Recorded start.memo order correlations) :
    Ends (order.foldlM (renameNext names simplifies correlations) renamed) state
      (fun later after => Visited names simplifies start (before ++ order) later after)
      (fun _ after => after.Allocated) := by
  induction order generalizing before renamed state with
  | nil =>
    rw [List.append_nil]
    exact .pure visited
  | cons id rest ih =>
    obtain ⟨reference, found⟩ := complete id (by simp)
    obtain ⟨correlated, listed, described⟩ := recorded id (by simp)
    have absent : id ∉ before := fun member =>
      (List.nodup_append.mp distinct).2.2 id member id (List.mem_cons_self ..) rfl
    cases arranged with
    | cons inputs arranged =>
      rw [List.foldlM_cons]
      refine .bind ((visited.renameNext_ends absent inputs found (allocated id reference found) listed
        described).imp ?_)
      intro later between joined
      have whole : before ++ [id] ++ rest = before ++ id :: rest := by simp
      rw [← whole] at distinct ⊢
      exact ih joined distinct arranged (fun other member => complete other (by simp [member]))
        fun other member => recorded other (by simp [member])

/-- Renaming a grounded graph returns what every given reference has become, if it returns. -/
theorem renameCorrelations_visits (names : Renaming) (simplifies : Bool) {ids : List ReferenceId}
    {state : MemoState ε} (grounded : state.memo.Grounded ids) (allocated : state.Allocated) :
    Ends (renameCorrelations names simplifies ids) state
      (fun results after => ∃ order renamed, order.Nodup ∧ (∀ id, id ∈ order ↔ state.memo.Reaches ids id) ∧
        Visited names simplifies state order renamed after ∧ results = ids.map renamed.becomes)
      (fun _ after => after.Allocated) := by
  obtain ⟨order, correlations, distinct, elements, arranged, recorded, inOrder⟩ :=
    renameCorrelations_inOrder names simplifies grounded
  unfold Ends
  rw [inOrder]
  refine Ends.bind ((renameInOrder_ends (.none_yet names simplifies allocated) allocated distinct arranged
    (fun id member => grounded.complete id ((elements id).mp member)) recorded).imp ?_)
  intro renamed after visited
  have known : ∀ id ∈ ids, ∃ reference, renamed[id]? = some reference :=
    fun id member => visited.visited id ((elements id).mpr (.of_mem member))
  refine (lookUp_returns ids known after).mono ?_ fun _ _ absurdity => absurdity.elim
  intro results final outcome
  obtain ⟨rfl, rfl⟩ := outcome
  exact ⟨order, renamed, distinct, elements, visited, rfl⟩

end Drawing
end QueryOptimizer
