import QueryOptimizer.Proofs.Expression.Aliases
import QueryOptimizer.Proofs.Scalar.Renaming
import QueryOptimizer.Proofs.Tree.Sharing

/-!
What renaming copies of a scalar. There is one case for each kind of scalar that is copied, and one for all
that refer to no renamed alias and are left as they are.
-/
namespace QueryOptimizer.Scalar
variable {names : Renaming} {first last : Nat}

/-- What becomes of a scalar: either nothing is renamed in it, and it stays the same node, or it is copied
under an identity from `first` on and below `last`. -/
inductive Follows (names : Renaming) (first last : Nat) : Scalar → Scalar → Prop where
  | kept : names.Spares scalar.correlatedTo → Follows names first last scalar scalar
  | column {id new : NodeId} : names.renames quantifier = true → first ≤ new.index → new.index < last →
      Follows names first last (.column id quantifier name) (.column new (names.apply quantifier) name)
  | parameter {id new : NodeId} : names.renames symbol = true → first ≤ new.index → new.index < last →
      Follows names first last (.parameter id symbol) (.parameter new (names.apply symbol))
  | call {id new : NodeId} : ¬ names.Spares (correlatedToEach arguments) → first ≤ new.index → new.index < last →
      List.Forall₂ (Follows names first last) arguments images →
      Follows names first last (.call id function arguments) (.call new function images)

theorem spares_correlatedToEach {scalars : List Scalar} :
    names.Spares (correlatedToEach scalars) ↔ ∀ scalar ∈ scalars, names.Spares scalar.correlatedTo := by
  induction scalars with
  | nil => simp [correlatedToEach, Renaming.spares_empty]
  | cons scalar rest ih => rw [correlatedToEach, Renaming.spares_union, ih, List.forall_mem_cons]

/-- The nodes of the scalar that refer to no renamed alias, and no others, stay where they are. -/
abbrev Shares (names : Renaming) : Scalar → Scalar → Prop :=
  Tree.Shares correlatedTo (fun _ _ => True) names

/-- The scalar refers to no alias that is renamed. -/
abbrev Spared (names : Renaming) (scalar : Scalar) : Prop :=
  names.Spares scalar.correlatedTo

namespace Follows
variable {scalar image : Scalar}

theorem children (follows : Follows names first last scalar image) :
    List.Forall₂ (Follows names first last) (Tree.children scalar) (Tree.children image) := by
  cases follows with
  | kept spares =>
    cases scalar with
    | call =>
      refine List.forall₂_same.mpr fun argument member => .kept ?_
      exact spares_correlatedToEach.mp spares argument member
    | literal | column | parameter => exact .nil
  | call _ _ _ below => exact below
  | column | parameter => exact .nil

theorem renewed (follows : Follows names first last scalar image) : Renewed (Spared names) first scalar image := by
  cases follows with
  | kept spares => exact ⟨fun _ => rfl, absurd spares⟩
  | column renamed lower =>
    refine ⟨fun spared => ?_, fun _ => lower⟩
    rw [Spared, correlatedTo, Renaming.spares_of, renamed] at spared
    cases spared
  | parameter renamed lower =>
    refine ⟨fun spared => ?_, fun _ => lower⟩
    rw [Spared, correlatedTo, Renaming.spares_of, renamed] at spared
    cases spared
  | call touched lower => exact ⟨fun spared => absurd spared touched, fun _ => lower⟩

theorem identity_lt (follows : Follows names first last scalar image) (old : scalar.identity.index < last) :
    image.identity.index < last := by
  cases follows with
  | kept => exact old
  | column _ _ upper | parameter _ _ upper | call _ _ upper => exact upper

theorem mono {further : Nat} (follows : Follows names first last scalar image) (more : last ≤ further) :
    Follows names first further scalar image := by
  induction scalar using Tree.childInduction generalizing image with
  | step scalar ih =>
    cases follows with
    | kept spares => exact .kept spares
    | column renamed lower upper => exact .column renamed lower (upper.trans_le more)
    | parameter renamed lower upper => exact .parameter renamed lower (upper.trans_le more)
    | call touched lower upper below =>
      refine .call touched lower (upper.trans_le more) ?_
      exact forall₂_imp_of_mem below fun argument member _ follows => ih argument member follows

theorem agrees (follows : Follows names first last scalar image) :
    image.agrees (scalar.mapAliases names.apply) = true := by
  induction scalar using Tree.childInduction generalizing image with
  | step scalar ih =>
    cases follows with
    | kept spares =>
      rw [mapAliases_eq_self scalar spares.apply_eq, agrees_iff_bare_eq]
    | column | parameter => simp [Scalar.agrees, mapAliases]
    | call touched lower upper below =>
      rw [mapAliases, Scalar.agrees, decide_eq_true rfl, Bool.true_and]
      exact agreesEach_mapAliasesEach
        (forall₂_imp_of_mem below fun argument member _ follows => ih argument member follows)

theorem allocated {supply later : Supply} (follows : Follows names first later.allocated scalar image)
    (known : Tree.Allocated supply scalar) (more : supply.allocated ≤ later.allocated) :
    Tree.Allocated later image := by
  intro inner within
  obtain ⟨node, member, follows⟩ := Tree.exists_related_of_mem_postOrder (fun _ _ => children) follows within
  exact follows.identity_lt ((known node member).trans_le more)

/-- A scalar shares with what becomes of it just those nodes that refer to no renamed alias. -/
theorem shares {supply : Supply} (follows : Follows names supply.allocated last scalar image)
    (known : Tree.Allocated supply scalar) :
    Shares names scalar image := by
  intro path node found
  obtain ⟨inner, reached, follows⟩ := Tree.at?_of_related (fun _ _ => children) follows found
  have renewed := follows.renewed
  have old := known node (Tree.mem_postOrder_of_at? found)
  refine ⟨inner, reached, renewed.kept, fun touched => ?_, trivial⟩
  exact Bool.eq_false_iff.mpr fun same => touched ((renewed.sameNode_iff old).mp same)

end Follows

theorem renameNode_follows {scalar : Scalar} {arguments : List Scalar} {state : Supply}
    (old : ∀ child ∈ Tree.children scalar, child.identity.index < first) (reached : first ≤ state.allocated)
    (below : List.Forall₂ (Follows names first state.allocated) (Tree.children scalar) arguments) :
    Returns (renameNode names scalar arguments : EStateM Interruption Supply Scalar) state fun image after =>
      state.allocated ≤ after.allocated ∧ Follows names first after.allocated scalar image := by
  cases scalar with
  | literal id value =>
    cases below
    exact .of_eq rfl ⟨Nat.le_refl _, .kept Renaming.spares_empty⟩
  | column id quantifier name =>
    dsimp only [renameNode]
    split
    · rename_i renamed
      exact .bind (.of_eq rfl (.pure ⟨Nat.le_succ _, .column renamed reached (Nat.lt_succ_self _)⟩))
    · rename_i spared
      cases below
      exact .of_eq rfl ⟨Nat.le_refl _, .kept (Renaming.spares_of.mpr (Bool.eq_false_iff.mpr spared))⟩
  | parameter id symbol =>
    dsimp only [renameNode]
    split
    · rename_i renamed
      exact .bind (.of_eq rfl (.pure ⟨Nat.le_succ _, .parameter renamed reached (Nat.lt_succ_self _)⟩))
    · rename_i spared
      cases below
      exact .of_eq rfl ⟨Nat.le_refl _, .kept (Renaming.spares_of.mpr (Bool.eq_false_iff.mpr spared))⟩
  | call id function scalars =>
    refine (Renewed.rebuild (below.imp fun _ _ follows => follows.renewed) old).imp ?_
    rintro image after (⟨rfl, rfl, spared⟩ | ⟨rfl, rfl, touched⟩)
    · exact ⟨Nat.le_refl _, .kept (spares_correlatedToEach.mpr spared)⟩
    · refine ⟨Nat.le_succ _, .call (mt spares_correlatedToEach.mp touched) reached (Nat.lt_succ_self _) ?_⟩
      exact below.imp fun _ _ follows => follows.mono (Nat.le_succ _)

/-- Renaming a scalar always returns, and what becomes of the scalar follows the cases. -/
theorem rename_follows (names : Renaming) {start : Supply} {scalar : Scalar} (known : Tree.Allocated start scalar) :
    Proceeds start.allocated (rename names scalar : EStateM Interruption Supply Scalar) fun later =>
      Follows names start.allocated later scalar := by
  refine Tree.mapPostOrder_proceeds _ (fun _ _ _ _ more follows => follows.mono more) scalar ?_
  intro node within state arguments reached below
  exact renameNode_follows (fun child member => known child (Tree.child_mem_postOrder within member)) reached below

end QueryOptimizer.Scalar
