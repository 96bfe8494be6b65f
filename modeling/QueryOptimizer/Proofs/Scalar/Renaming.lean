import QueryOptimizer.Proofs.Scalar.Step
import QueryOptimizer.Proofs.Tree.Renaming

/-!
Renaming the aliases that scalar expressions refer to.
-/
namespace QueryOptimizer.Scalar
variable {names : Renaming} {start : Supply}

theorem images_correlatedToEach {scalars renamed : List Scalar}
    (images : List.Forall₂ (fun scalar renamed => names.Images (correlatedTo scalar) (correlatedTo renamed))
      scalars renamed) : names.Images (correlatedToEach scalars) (correlatedToEach renamed) := by
  induction images with
  | nil => exact .empty
  | cons first _ ih => exact first.union ih

/-- What renaming makes of a scalar. -/
abbrev RenamesTo (names : Renaming) (start : Supply) : Scalar → Scalar → Prop :=
  RenamedNode correlatedTo Tree.Allocated names start

theorem renameNode_draws (scalar : Scalar) {arguments : List Scalar}
    (below : List.Forall₂ (RenamesTo names start) (Tree.children scalar) arguments) :
    Draws (renameNode names scalar arguments : EStateM Interruption Supply Scalar) start
      (RenamesTo names start scalar) := by
  have handed (allocated : Tree.Allocated start scalar) (child : Scalar)
      (member : child ∈ Tree.children scalar) :
      Tree.Allocated start child ∧ (Identified.identity child).index < start.allocated :=
    ⟨allocated.child member, allocated.child member child (Tree.root_mem_postOrder child)⟩
  cases scalar with
  | literal => exact RenamedNode.rebuild below handed rfl fun _ _ _ => .empty
  | call => exact RenamedNode.rebuild below handed rfl fun _ _ images => images_correlatedToEach images
  | column id quantifier name =>
    dsimp only [renameNode]
    split
    · exact Draws.fresh.bind fun id new => .pure ⟨.inr new, fun _ => .single quantifier⟩
    · rename_i kept
      exact RenamedNode.rebuild below handed rfl fun _ _ _ => .single_of_not_renames kept
  | parameter id symbol =>
    dsimp only [renameNode]
    split
    · exact Draws.fresh.bind fun id new => .pure ⟨.inr new, fun _ => .single symbol⟩
    · rename_i kept
      exact RenamedNode.rebuild below handed rfl fun _ _ _ => .single_of_not_renames kept

/-- Renaming a scalar always returns, and what it returns refers to the new names of what the scalar
refers to. -/
theorem rename_draws (scalar : Scalar) (names : Renaming) (start : Supply) :
    Draws (rename names scalar : EStateM Interruption Supply Scalar) start (RenamesTo names start scalar) :=
  Tree.mapPostOrder_draws (RenamesTo names start) scalar fun node _ below => renameNode_draws node below

end QueryOptimizer.Scalar
