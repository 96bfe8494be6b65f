import QueryOptimizer.Proofs.Predicate.Renaming
import QueryOptimizer.Proofs.Scalar.Sharing

/-!
What renaming copies of a predicate, and of the scalars that it is about.
-/
namespace QueryOptimizer.Predicate
variable {names : Renaming} {first last : Nat}

/-- What becomes of a predicate: either nothing is renamed in it, and it stays the same node, or it is copied
under an identity from `first` on and below `last`, over what becomes of its operands or scalars. -/
inductive Follows (names : Renaming) (first last : Nat) : Predicate → Predicate → Prop where
  | kept : names.Spares predicate.correlatedTo → Follows names first last predicate predicate
  | and {id new : NodeId} : ¬ names.Spares (correlatedToEach operands) → first ≤ new.index → new.index < last →
      List.Forall₂ (Follows names first last) operands images →
      Follows names first last (.and id operands) (.and new images)
  | or {id new : NodeId} : ¬ names.Spares (correlatedToEach operands) → first ≤ new.index → new.index < last →
      List.Forall₂ (Follows names first last) operands images →
      Follows names first last (.or id operands) (.or new images)
  | not {id new : NodeId} : ¬ names.Spares operand.correlatedTo → first ≤ new.index → new.index < last →
      Follows names first last operand image → Follows names first last (.not id operand) (.not new image)
  | compare {id new : NodeId} : ¬ names.Spares (left.correlatedTo ∪ right.correlatedTo) →
      first ≤ new.index → new.index < last →
      left.Follows names first last newLeft → right.Follows names first last newRight →
      Follows names first last (.compare id comparison left right) (.compare new comparison newLeft newRight)
  | isNull {id new : NodeId} : ¬ names.Spares operand.correlatedTo → first ≤ new.index → new.index < last →
      operand.Follows names first last image → Follows names first last (.isNull id operand) (.isNull new image)

theorem spares_correlatedToEach {predicates : List Predicate} :
    names.Spares (correlatedToEach predicates) ↔ ∀ predicate ∈ predicates, names.Spares predicate.correlatedTo := by
  induction predicates with
  | nil => simp [correlatedToEach, Renaming.spares_empty]
  | cons predicate rest ih => rw [correlatedToEach, Renaming.spares_union, ih, List.forall_mem_cons]

/-- The predicate refers to no alias that is renamed. -/
abbrev Spared (names : Renaming) (predicate : Predicate) : Prop :=
  names.Spares predicate.correlatedTo

theorem Spared.children {predicate : Predicate} (spared : Spared names predicate) :
    ∀ operand ∈ Tree.children predicate, Spared names operand := by
  cases predicate with
  | and | or => exact spares_correlatedToEach.mp spared
  | not => exact List.forall_mem_singleton.mpr spared
  | constant | compare | isNull => exact List.forall_mem_nil _

theorem Spared.scalars {predicate : Predicate} (spared : Spared names predicate) :
    ∀ scalar ∈ predicate.scalars, scalar.Spared names := by
  cases predicate with
  | compare id comparison left right =>
    obtain ⟨sparedLeft, sparedRight⟩ := Renaming.spares_union.mp spared
    exact List.forall_mem_cons.mpr ⟨sparedLeft, List.forall_mem_singleton.mpr sparedRight⟩
  | isNull => exact List.forall_mem_singleton.mpr spared
  | constant | and | or | not => exact List.forall_mem_nil _

/-- The nodes of the predicate and of its scalars that refer to no renamed alias, and no others, stay where
they are. -/
abbrev Shares (names : Renaming) : Predicate → Predicate → Prop :=
  Tree.Shares correlatedTo (fun node image => List.Forall₂ (Scalar.Shares names) node.scalars image.scalars) names

namespace Follows
variable {predicate image : Predicate}

theorem children (follows : Follows names first last predicate image) :
    List.Forall₂ (Follows names first last) (Tree.children predicate) (Tree.children image) := by
  cases follows with
  | kept spared => exact List.forall₂_same.mpr fun operand member => .kept (Spared.children spared operand member)
  | and _ _ _ below | or _ _ _ below => exact below
  | not _ _ _ below => exact .cons below .nil
  | compare | isNull => exact .nil

theorem scalars (follows : Follows names first last predicate image) :
    List.Forall₂ (Scalar.Follows names first last) predicate.scalars image.scalars := by
  cases follows with
  | kept spared => exact List.forall₂_same.mpr fun scalar member => .kept (Spared.scalars spared scalar member)
  | and | or | not => exact .nil
  | compare _ _ _ left right => exact .cons left (.cons right .nil)
  | isNull _ _ _ operand => exact .cons operand .nil

theorem renewed (follows : Follows names first last predicate image) :
    Renewed (Spared names) first predicate image := by
  cases follows with
  | kept spared => exact ⟨fun _ => rfl, absurd spared⟩
  | and touched lower | or touched lower | not touched lower | compare touched lower | isNull touched lower =>
    exact ⟨fun spared => absurd spared touched, fun _ => lower⟩

theorem identity_lt (follows : Follows names first last predicate image) (old : predicate.identity.index < last) :
    image.identity.index < last := by
  cases follows with
  | kept => exact old
  | and _ _ upper | or _ _ upper | not _ _ upper | compare _ _ upper | isNull _ _ upper => exact upper

theorem mono {further : Nat} (follows : Follows names first last predicate image) (more : last ≤ further) :
    Follows names first further predicate image := by
  induction predicate using Tree.childInduction generalizing image with
  | step predicate ih =>
    have each {images : List Predicate}
        (below : List.Forall₂ (Follows names first last) (Tree.children predicate) images) :
        List.Forall₂ (Follows names first further) (Tree.children predicate) images :=
      forall₂_imp_of_mem below fun operand member _ follows => ih operand member follows
    cases follows with
    | kept spared => exact .kept spared
    | and touched lower upper below => exact .and touched lower (upper.trans_le more) (each below)
    | or touched lower upper below => exact .or touched lower (upper.trans_le more) (each below)
    | not touched lower upper below =>
      exact .not touched lower (upper.trans_le more) (ih _ (List.mem_singleton_self _) below)
    | compare touched lower upper left right =>
      exact .compare touched lower (upper.trans_le more) (left.mono more) (right.mono more)
    | isNull touched lower upper operand => exact .isNull touched lower (upper.trans_le more) (operand.mono more)

theorem agrees (follows : Follows names first last predicate image) :
    image.agrees (predicate.mapAliases names.apply) = true := by
  induction predicate using Tree.childInduction generalizing image with
  | step predicate ih =>
    have each {images : List Predicate}
        (below : List.Forall₂ (Follows names first last) (Tree.children predicate) images) :
        agreesEach images (mapAliasesEach names.apply (Tree.children predicate)) = true :=
      agreesEach_mapAliasesEach (forall₂_imp_of_mem below fun operand member _ follows => ih operand member follows)
    cases follows with
    | kept spared => rw [mapAliases_eq_self predicate spared.apply_eq, agrees_iff_bare_eq]
    | and _ _ _ below | or _ _ _ below => exact each below
    | not _ _ _ below => exact ih _ (List.mem_singleton_self _) below
    | compare _ _ _ left right => simp [Predicate.agrees, mapAliases, left.agrees, right.agrees]
    | isNull _ _ _ operand => exact operand.agrees

theorem allocated {supply later : Supply} (follows : Follows names first later.allocated predicate image)
    (known : Allocated supply predicate) (more : supply.allocated ≤ later.allocated) :
    Allocated later image := by
  intro inner within
  obtain ⟨node, member, follows⟩ := Tree.exists_related_of_mem_postOrder (fun _ _ => children) follows within
  obtain ⟨old, about⟩ := known node member
  refine ⟨follows.identity_lt (old.trans_le more), ?_⟩
  have each := forall₂_imp_of_mem follows.scalars fun scalar among _ follows =>
    follows.allocated (about scalar among) more
  exact forall_mem_of_forall₂ each fun _ _ known => known

/-- A predicate shares with what becomes of it just those nodes that refer to no renamed alias, and so do
the scalars that it is about. -/
theorem shares {supply : Supply} (follows : Follows names supply.allocated last predicate image)
    (known : Allocated supply predicate) : Shares names predicate image := by
  intro path node found
  obtain ⟨inner, reached, follows⟩ := Tree.at?_of_related (fun _ _ => children) follows found
  have renewed := follows.renewed
  obtain ⟨old, about⟩ := known node (Tree.mem_postOrder_of_at? found)
  refine ⟨inner, reached, renewed.kept, fun touched => ?_, ?_⟩
  · exact Bool.eq_false_iff.mpr fun same => touched ((renewed.sameNode_iff old).mp same)
  · exact forall₂_imp_of_mem follows.scalars fun scalar among _ follows => follows.shares (about scalar among)

end Follows

theorem spared_of_scalars {predicate : Predicate} (about : predicate.scalars ≠ [])
    (spared : ∀ scalar ∈ predicate.scalars, scalar.Spared names) : Spared names predicate := by
  cases predicate with
  | compare id comparison left right =>
    obtain ⟨sparedLeft, others⟩ := List.forall_mem_cons.mp spared
    exact Renaming.spares_union.mpr ⟨sparedLeft, others right (List.mem_singleton_self right)⟩
  | isNull id operand => exact spared operand (List.mem_singleton_self operand)
  | constant | and | or | not => exact absurd rfl about

/-- A predicate that is about scalars is copied over the renamed ones, unless all of them are spared. -/
theorem renameScalars_follows (predicate : Predicate) {start : Supply} (about : predicate.scalars ≠ [])
    (known : ∀ scalar ∈ predicate.scalars, Tree.Allocated start scalar) :
    Proceeds start.allocated (do
      let renamed ← predicate.scalars.mapM (Scalar.rename names)
      if (predicate.scalars.zip renamed).all fun pair => sameNode pair.1 pair.2 then return predicate
      else predicate.withScalars renamed : EStateM Interruption Supply Predicate) fun later =>
      Follows names start.allocated later predicate := by
  intro state reached
  have scalars : Proceeds start.allocated
      (predicate.scalars.mapM (Scalar.rename names) : EStateM Interruption Supply (List Scalar)) fun later =>
      List.Forall₂ (Scalar.Follows names start.allocated later) predicate.scalars :=
    .mapM predicate.scalars (fun _ _ _ _ more follows => follows.mono more) fun scalar member =>
      Scalar.rename_follows names (known scalar member)
  refine .bind ((scalars state reached).imp ?_)
  rintro renamed middle ⟨more, each⟩
  have same := Renewed.sameNodes_iff (each.imp fun _ _ follows => follows.renewed) fun scalar member =>
    known scalar member scalar (Tree.root_mem_postOrder scalar)
  split
  · rename_i all
    exact .pure ⟨more, .kept (spared_of_scalars about (same.mp (List.all_eq_true.mp all)))⟩
  · rename_i some
    have touched : ¬ Spared names predicate := fun spared =>
      some (List.all_eq_true.mpr (same.mpr (Spared.scalars spared)))
    have new := reached.trans more
    cases predicate with
    | compare id comparison left right =>
      obtain ⟨newLeft, _, followsLeft, rest, rfl⟩ := List.forall₂_cons_left_iff.mp each
      obtain ⟨newRight, _, followsRight, none, rfl⟩ := List.forall₂_cons_left_iff.mp rest
      cases none
      refine .bind (.of_eq rfl (.pure ⟨more.trans (Nat.le_succ _), ?_⟩))
      exact .compare touched new (Nat.lt_succ_self _) (followsLeft.mono (Nat.le_succ _))
        (followsRight.mono (Nat.le_succ _))
    | isNull id operand =>
      obtain ⟨newOperand, _, follows, none, rfl⟩ := List.forall₂_cons_left_iff.mp each
      cases none
      refine .bind (.of_eq rfl (.pure ⟨more.trans (Nat.le_succ _), ?_⟩))
      exact .isNull touched new (Nat.lt_succ_self _) (follows.mono (Nat.le_succ _))
    | constant | and | or | not => exact absurd rfl about

theorem renameNode_follows {predicate : Predicate} {operands : List Predicate} {start state : Supply}
    (known : Allocated start predicate) (reached : start.allocated ≤ state.allocated)
    (below : List.Forall₂ (Follows names start.allocated state.allocated) (Tree.children predicate) operands) :
    Returns (renameNode names predicate operands : EStateM Interruption Supply Predicate) state fun image after =>
      state.allocated ≤ after.allocated ∧ Follows names start.allocated after.allocated predicate image := by
  have rebuilt : Returns (Tree.rebuild predicate operands : EStateM Interruption Supply Predicate) state _ :=
    Renewed.rebuild (below.imp fun _ _ follows => follows.renewed) fun operand member =>
      (known operand (Tree.mem_postOrder_of_child member (Tree.root_mem_postOrder operand))).1
  have later : ∀ one other, Follows names start.allocated state.allocated one other →
      Follows names start.allocated (state.allocated + 1) one other := fun _ _ follows => follows.mono (Nat.le_succ _)
  cases predicate with
  | constant =>
    cases below
    exact .of_eq rfl ⟨Nat.le_refl _, .kept Renaming.spares_empty⟩
  | and id inner =>
    refine rebuilt.imp ?_
    rintro image after (⟨rfl, rfl, spared⟩ | ⟨rfl, rfl, touched⟩)
    · exact ⟨Nat.le_refl _, .kept (spares_correlatedToEach.mpr spared)⟩
    · exact ⟨Nat.le_succ _, .and (mt spares_correlatedToEach.mp touched) reached (Nat.lt_succ_self _) (below.imp later)⟩
  | or id inner =>
    refine rebuilt.imp ?_
    rintro image after (⟨rfl, rfl, spared⟩ | ⟨rfl, rfl, touched⟩)
    · exact ⟨Nat.le_refl _, .kept (spares_correlatedToEach.mpr spared)⟩
    · exact ⟨Nat.le_succ _, .or (mt spares_correlatedToEach.mp touched) reached (Nat.lt_succ_self _) (below.imp later)⟩
  | not id inner =>
    obtain ⟨image, _, follows, none, rfl⟩ := List.forall₂_cons_left_iff.mp below
    cases none
    refine rebuilt.imp ?_
    rintro image after (⟨rfl, rfl, spared⟩ | ⟨rfl, rfl, touched⟩)
    · exact ⟨Nat.le_refl _, .kept (spared inner (List.mem_singleton_self inner))⟩
    · refine ⟨Nat.le_succ _, .not (fun spared => touched ?_) reached (Nat.lt_succ_self _) (later _ _ follows)⟩
      exact fun operand member => List.mem_singleton.mp member ▸ spared
  | compare id comparison left right =>
    exact renameScalars_follows (.compare id comparison left right) (List.cons_ne_nil _ _) known.scalars state reached
  | isNull id operand =>
    exact renameScalars_follows (.isNull id operand) (List.cons_ne_nil _ _) known.scalars state reached

/-- Renaming a predicate always returns, and what becomes of the predicate follows the cases. -/
theorem rename_follows (names : Renaming) {start : Supply} {predicate : Predicate}
    (known : Allocated start predicate) :
    Proceeds start.allocated (rename names predicate : EStateM Interruption Supply Predicate) fun later =>
      Follows names start.allocated later predicate := by
  refine Tree.mapPostOrder_proceeds _ (fun _ _ _ _ more follows => follows.mono more) predicate ?_
  intro node within state operands reached below
  exact renameNode_follows (fun inner further => known inner (Tree.mem_postOrder_trans within further)) reached below

end QueryOptimizer.Predicate
