import QueryOptimizer.Proofs.Predicate.Step
import QueryOptimizer.Proofs.Scalar.Renaming

/-!
Renaming the aliases that the scalars of predicates refer to.
-/
namespace QueryOptimizer.Predicate
variable {names : Renaming} {start supply : Supply}

/-- The supply hands out none of the identities in the predicate, or in its scalars, again. -/
def Allocated (supply : Supply) (predicate : Predicate) : Prop :=
  ∀ node ∈ Tree.postOrder predicate, node.identity.index < supply.allocated ∧
    ∀ scalar ∈ node.scalars, Tree.Allocated supply scalar

theorem Allocated.child {predicate operand : Predicate} (allocated : Allocated supply predicate)
    (member : operand ∈ Tree.children predicate) : Allocated supply operand :=
  fun node within => allocated node (Tree.mem_postOrder_of_child member within)

theorem Allocated.scalars {predicate : Predicate} (allocated : Allocated supply predicate) :
    ∀ scalar ∈ predicate.scalars, Tree.Allocated supply scalar :=
  (allocated predicate (Tree.root_mem_postOrder predicate)).2

theorem images_correlatedToEach {predicates renamed : List Predicate}
    (images : List.Forall₂ (fun predicate renamed =>
      names.Images (correlatedTo predicate) (correlatedTo renamed)) predicates renamed) :
    names.Images (correlatedToEach predicates) (correlatedToEach renamed) := by
  induction images with
  | nil => exact .empty
  | cons first _ ih => exact first.union ih

/-- What renaming makes of a predicate. -/
abbrev RenamesTo (names : Renaming) (start : Supply) : Predicate → Predicate → Prop :=
  RenamedNode correlatedTo Allocated names start

/-- A predicate about scalars gets the renamed ones, unless all of them stay the same. -/
theorem renameScalars_draws (predicate : Predicate) (about : predicate.scalars ≠ []) :
    Draws (do
      let renamed ← predicate.scalars.mapM (Scalar.rename names)
      if (predicate.scalars.zip renamed).all fun pair => sameNode pair.1 pair.2 then return predicate
      else predicate.withScalars renamed : EStateM Interruption Supply Predicate) start
      (RenamesTo names start predicate) := by
  refine (Draws.mapM predicate.scalars fun scalar _ => scalar.rename_draws names start).bind ?_
  intro renamed known
  have images (allocated : Allocated start predicate) := RenamedNode.images_each known allocated.scalars
  split
  · rename_i same
    refine .pure ⟨.inl rfl, ?_⟩
    intro allocated
    have unchanged := RenamedNode.eq_of_sameNodes known
      (fun scalar member => allocated.scalars scalar member scalar (Tree.root_mem_postOrder scalar))
      (List.all_eq_true.mp same)
    have kept := images allocated
    rw [unchanged] at kept
    cases predicate with
    | compare =>
      obtain ⟨left, others⟩ := List.forall₂_cons.mp kept
      exact left.union (List.forall₂_cons.mp others).1
    | isNull => exact (List.forall₂_cons.mp kept).1
    | constant | and | or | not => exact absurd rfl about
  · cases predicate with
    | compare id comparison left right =>
      obtain ⟨newLeft, rest, -, others, rfl⟩ := List.forall₂_cons_left_iff.mp known
      obtain ⟨newRight, none, -, last, rfl⟩ := List.forall₂_cons_left_iff.mp others
      cases last
      refine Draws.fresh.bind fun id new => .pure ⟨.inr new, ?_⟩
      intro allocated
      obtain ⟨first, second⟩ := List.forall₂_cons.mp (images allocated)
      exact first.union (List.forall₂_cons.mp second).1
    | isNull id operand =>
      obtain ⟨newOperand, none, -, last, rfl⟩ := List.forall₂_cons_left_iff.mp known
      cases last
      refine Draws.fresh.bind fun id new => .pure ⟨.inr new, ?_⟩
      exact fun allocated => (List.forall₂_cons.mp (images allocated)).1
    | constant | and | or | not => exact absurd rfl about

theorem renameNode_draws (predicate : Predicate) {operands : List Predicate}
    (below : List.Forall₂ (RenamesTo names start) (Tree.children predicate) operands) :
    Draws (renameNode names predicate operands : EStateM Interruption Supply Predicate) start
      (RenamesTo names start predicate) := by
  have handed (allocated : Allocated start predicate) (operand : Predicate)
      (member : operand ∈ Tree.children predicate) :
      Allocated start operand ∧ (Identified.identity operand).index < start.allocated :=
    ⟨allocated.child member, (allocated.child member operand (Tree.root_mem_postOrder operand)).1⟩
  cases predicate with
  | constant => exact RenamedNode.rebuild below handed rfl fun _ _ _ => .empty
  | and | or => exact RenamedNode.rebuild below handed rfl fun _ _ images => images_correlatedToEach images
  | not id operand =>
    refine RenamedNode.rebuild below handed rfl ?_
    intro renamed copy images
    obtain ⟨newOperand, none, image, last, rfl⟩ := List.forall₂_cons_left_iff.mp images
    exact image
  | compare => exact renameScalars_draws _ (List.cons_ne_nil _ _)
  | isNull => exact renameScalars_draws _ (List.cons_ne_nil _ _)

/-- Renaming a predicate always returns, and what it returns refers to the new names of what the
predicate refers to. -/
theorem rename_draws (predicate : Predicate) (names : Renaming) (start : Supply) :
    Draws (rename names predicate : EStateM Interruption Supply Predicate) start
      (RenamesTo names start predicate) :=
  Tree.mapPostOrder_draws (RenamesTo names start) predicate fun node _ below => renameNode_draws node below

end QueryOptimizer.Predicate
