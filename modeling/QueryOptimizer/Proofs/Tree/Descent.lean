import QueryOptimizer.Proofs.Tree.Arena

/-!
Descent in a tree: the nodes strictly below a node, how many levels of nodes there are, and what holds throughout.
-/
namespace QueryOptimizer

/-- The greatest of what `measure` gives for the elements of a list. -/
def greatestOf (measure : α → Nat) (elements : List α) : Nat :=
  elements.foldr (fun element greatest => max (measure element) greatest) 0

theorem greatestOf_le_iff {measure : α → Nat} {elements : List α} {bound : Nat} :
    greatestOf measure elements ≤ bound ↔ ∀ element ∈ elements, measure element ≤ bound := by
  induction elements with
  | nil => simp [greatestOf]
  | cons element rest ih =>
    have folded : greatestOf measure (element :: rest) = max (measure element) (greatestOf measure rest) := rfl
    rw [folded, Nat.max_le, ih, List.forall_mem_cons]

namespace Tree
variable {ν ω : Type} [Tree ν ω]

/-- What holds of a node if it holds of its children holds of every node. -/
@[elab_as_elim]
theorem childInduction {motive : ν → Prop}
    (step : ∀ node, (∀ child ∈ children node, motive child) → motive node) (node : ν) : motive node :=
  step node fun child _ => childInduction step child
termination_by nodeCount node
decreasing_by rename_i member; exact nodeCount_lt member

/-- The proper descendants of a node. -/
def Below (node descendant : ν) : Prop :=
  ∃ child ∈ children node, descendant ∈ postOrder child

variable {node inner descendant : ν}

theorem mem_postOrder_iff_below : descendant ∈ postOrder node ↔ descendant = node ∨ Below node descendant :=
  mem_postOrder

theorem below_of_child (member : descendant ∈ children node) : Below node descendant :=
  ⟨descendant, member, root_mem_postOrder descendant⟩

theorem Below.mem_postOrder (below : Below node descendant) : descendant ∈ postOrder node :=
  mem_postOrder_iff_below.mpr (.inr below)

theorem mem_postOrder_trans (within : inner ∈ postOrder node) (further : descendant ∈ postOrder inner) :
    descendant ∈ postOrder node := by
  induction node using childInduction with
  | step node ih =>
    rcases mem_postOrder.mp within with same | ⟨child, member, below⟩
    · exact same ▸ further
    · exact mem_postOrder_of_child member (ih child member below)

theorem Below.trans_mem (below : Below node inner) (further : descendant ∈ postOrder inner) :
    Below node descendant :=
  let ⟨child, member, within⟩ := below
  ⟨child, member, mem_postOrder_trans within further⟩

theorem nodeCount_le_of_mem_postOrder (within : descendant ∈ postOrder node) :
    nodeCount descendant ≤ nodeCount node := by
  induction node using childInduction with
  | step node ih =>
    rcases mem_postOrder.mp within with same | ⟨child, member, below⟩
    · exact Nat.le_of_eq (congrArg nodeCount same)
    · exact Nat.le_of_lt (Nat.lt_of_le_of_lt (ih child member below) (nodeCount_lt member))

/-- No node is below itself. -/
theorem Below.ne (below : Below node descendant) : descendant ≠ node := by
  rintro rfl
  obtain ⟨child, member, within⟩ := below
  exact Nat.lt_irrefl _ (Nat.lt_of_le_of_lt (nodeCount_le_of_mem_postOrder within) (nodeCount_lt member))

/-- How many nodes there are on the longest path from a node down. -/
def height (node : ν) : Nat :=
  1 + greatestOf (fun child => height child.1) (children node).attach
termination_by nodeCount node
decreasing_by exact nodeCount_lt child.2

theorem height_eq (node : ν) : height node = 1 + greatestOf height (children node) := by
  rw [height]
  exact congrArg (1 + ·) (List.foldr_subtype (fun _ _ _ => rfl) |>.trans (by simp; rfl))

theorem height_pos (node : ν) : 0 < height node := by
  rw [height_eq]
  omega

theorem height_le_succ_iff {bound : Nat} :
    height node ≤ bound + 1 ↔ ∀ child ∈ children node, height child ≤ bound := by
  rw [height_eq, Nat.add_comm, Nat.add_le_add_iff_right, greatestOf_le_iff]

theorem height_lt_of_below (below : Below node descendant) : height descendant < height node := by
  induction node using childInduction with
  | step node ih =>
    obtain ⟨child, member, within⟩ := below
    obtain ⟨bound, levels⟩ := Nat.exists_eq_add_of_le' (height_pos node)
    have lower : height child ≤ bound := height_le_succ_iff.mp (Nat.le_of_eq levels) child member
    rcases mem_postOrder_iff_below.mp within with rfl | further
    · omega
    · have shorter := ih child member further
      omega

/-- A node with no other descendants than a second one is no higher. -/
theorem height_le_of_below {other : ν} (down : ∀ descendant, Below node descendant → Below other descendant) :
    height node ≤ height other := by
  obtain ⟨bound, levels⟩ := Nat.exists_eq_add_of_le' (height_pos other)
  rw [levels, height_le_succ_iff]
  intro child member
  have lower := height_lt_of_below (down child (below_of_child member))
  omega

end Tree

section Throughout
variable {ν ω : Type} [Tree ν ω]

/-- All nodes of the tree have the property. -/
def Throughout (property : ν → Prop) (root : ν) : Prop :=
  ∀ node ∈ Tree.postOrder root, property node

/-- Everything below the node is made of nodes with the property. -/
def ThroughoutBelow (property : ν → Prop) (node : ν) : Prop :=
  ∀ child ∈ Tree.children node, Throughout property child

variable {property : ν → Prop} {node inner : ν}

theorem throughout_iff : Throughout property node ↔ property node ∧ ThroughoutBelow property node := by
  constructor
  · intro all
    exact ⟨all node (Tree.root_mem_postOrder node), fun child member inner within =>
      all inner (Tree.mem_postOrder_of_child member within)⟩
  · rintro ⟨here, below⟩ inner within
    rcases Tree.mem_postOrder.mp within with rfl | ⟨child, member, further⟩
    · exact here
    · exact below child member inner further

theorem Throughout.of_mem (all : Throughout property node) (within : inner ∈ Tree.postOrder node) :
    Throughout property inner :=
  fun _ further => all _ (Tree.mem_postOrder_trans within further)

theorem ThroughoutBelow.of_below (below : ThroughoutBelow property node) (descends : Tree.Below node inner) :
    Throughout property inner :=
  let ⟨child, member, within⟩ := descends
  (below child member).of_mem within

theorem throughoutBelow_of_leaf (leaf : Tree.children node = []) : ThroughoutBelow property node := by
  intro child member
  rw [leaf] at member
  cases member

end Throughout
end QueryOptimizer
