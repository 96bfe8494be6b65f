import Mathlib
import QueryOptimizer.Proofs.Tree.Fold

/-!
Arenas: sets of nodes that can exist side by side, in that an identity names one node among them and
was handed out. Nodes only ever join an arena, so that two of its nodes that are the same node at one
time are so at all times.
-/
namespace QueryOptimizer

/-- Trees whose copies are what they are documented to be: new nodes of the same kind over the given
children. -/
class LawfulTree (ν : Type) {ω : outParam Type} [Tree ν ω] : Prop where
  identity_copyOver : ∀ (node : ν) (nodes : List ν) (id : NodeId),
    identity (Tree.copyOver node nodes id) = id
  children_copyOver : ∀ (node : ν) (nodes : List ν) (id : NodeId),
    nodes.length = (Tree.children node).length → Tree.children (Tree.copyOver node nodes id) = nodes
  operator_copyOver : ∀ (node : ν) (nodes : List ν) (id : NodeId),
    Tree.operator (Tree.copyOver node nodes id) = Tree.operator node

namespace Tree
variable {ν ω : Type} [Tree ν ω]

/-- The nodes of a tree are its root and the nodes of the trees below. -/
theorem mem_postOrder {node root : ν} :
    node ∈ postOrder root ↔ node = root ∨ ∃ child ∈ children root, node ∈ postOrder child := by
  rw [postOrder_eq, List.mem_append, List.mem_flatMap, List.mem_singleton, or_comm]

theorem mem_postOrder_of_leaf {node root : ν} (leaf : children root = []) :
    node ∈ postOrder root ↔ node = root := by
  rw [mem_postOrder, leaf]
  simp only [List.not_mem_nil, false_and, exists_false, or_false]

theorem root_mem_postOrder (root : ν) : root ∈ postOrder root :=
  mem_postOrder.mpr (.inl rfl)

theorem mem_postOrder_of_child {root child node : ν} (member : child ∈ children root)
    (within : node ∈ postOrder child) : node ∈ postOrder root :=
  mem_postOrder.mpr (.inr ⟨child, member, within⟩)

/-- Every child of a node of a tree is a node of the tree. -/
theorem child_mem_postOrder {root node child : ν} (within : node ∈ postOrder root)
    (member : child ∈ children node) : child ∈ postOrder root := by
  rcases mem_postOrder.mp within with same | ⟨middle, present, below⟩
  · subst same
    exact mem_postOrder_of_child member (root_mem_postOrder child)
  · exact mem_postOrder_of_child present (child_mem_postOrder below member)
termination_by nodeCount root
decreasing_by exact nodeCount_lt present

/-- A traversal ends as its steps do: every node leaves behind what holds of it, given that it holds of
the children. -/
theorem mapPostOrder_ends {ε S W ρ : Type} [Preorder W] [MonadRaise (EStateM ε S)]
    {f : ν → List ρ → EStateM ε S ρ} (fits : W → S → Prop) (holds : W → ν → ρ → Prop)
    {stops : ε → S → Prop}
    (kept : ∀ world later node result, world ≤ later → holds world node result → holds later node result)
    (root : ν)
    (steps : ∀ node ∈ postOrder root, ∀ world state results, fits world state →
      List.Forall₂ (holds world) (children node) results →
      Ends (f node results) state
        (fun result after => Onward fits world after fun later => holds later node result) stops)
    {world : W} {state : S} (fit : fits world state) :
    Ends (mapPostOrder f root) state
      (fun result after => Onward fits world after fun later => holds later root result) stops := by
  rw [mapPostOrder_eq_fold]
  have each (node : ν) (within : node ∈ postOrder root) {world : W} {state : S} (fit : fits world state) :
      Ends (fold f node) state
        (fun result after => Onward fits world after fun later => holds later node result) stops := by
    induction size : nodeCount node using Nat.strongRecOn generalizing node world state with
    | ind count ih =>
      rw [fold_eq]
      refine .bind ((Ends.mapM fits holds kept (children node) ?_ fit).imp ?_)
      · intro child member world state fit
        exact ih (nodeCount child) (size ▸ nodeCount_lt member) child (child_mem_postOrder within member) fit rfl
      · intro results middle outcome
        obtain ⟨between, extended, fitted, below⟩ := outcome
        exact (steps node within between middle results fitted below).imp fun _ _ reached =>
          reached.after extended
  exact each root (root_mem_postOrder root) fit

/-- A traversal only draws identities if its steps do. -/
theorem mapPostOrder_draws {ε ρ : Type} [MonadRaise (EStateM ε Supply)]
    {f : ν → List ρ → EStateM ε Supply ρ} {start : Supply} (holds : ν → ρ → Prop) (root : ν)
    (steps : ∀ node results, List.Forall₂ holds (children node) results →
      Draws (f node results) start (holds node)) :
    Draws (mapPostOrder f root) start (holds root) := by
  intro supply later
  let fits (world : Nat) (supply : Supply) : Prop := world = supply.allocated ∧ start.allocated ≤ world
  have known : Returns (mapPostOrder f root) supply fun result after =>
      Onward fits supply.allocated after fun _ => holds root result := by
    refine mapPostOrder_ends fits (fun _ => holds) (fun _ _ _ _ _ held => held) root ?_ ⟨rfl, later⟩
    intro node _ world state results fit below
    obtain ⟨rfl, reached⟩ := fit
    refine (steps node results below state reached).imp ?_
    intro result after outcome
    exact ⟨after.allocated, outcome.1, ⟨rfl, Nat.le_trans reached outcome.1⟩, outcome.2⟩
  refine known.imp ?_
  intro result after reached
  obtain ⟨world, more, ⟨rfl, -⟩, held⟩ := reached
  exact ⟨more, held⟩

end Tree

section Arena
variable {ν ω : Type} [Tree ν ω]

/-- Among the nodes an identity names one node, and all of them have been handed out. -/
structure Arena (nodes : Set ν) (supply : Supply) : Prop where
  allocated : ∀ node ∈ nodes, (identity node).index < supply.allocated
  distinct : ∀ one ∈ nodes, ∀ other ∈ nodes, identity one = identity other → one = other
  closed : ∀ node ∈ nodes, ∀ child ∈ Tree.children node, child ∈ nodes

/-- The tree is made of nodes that can exist side by side: two of its nodes with one identity are one
node, however often it is shared, and the supply hands out none of their identities again. -/
def WellFormed (root : ν) (supply : Supply) : Prop :=
  Arena {node | node ∈ Tree.postOrder root} supply

/-- Trees whose nodes have distinct identities that were handed out are well-formed. -/
theorem WellFormed.of {root : ν} {supply : Supply}
    (allocated : ∀ node ∈ Tree.postOrder root, (identity node).index < supply.allocated)
    (distinct : ∀ one ∈ Tree.postOrder root, ∀ other ∈ Tree.postOrder root,
      identity one = identity other → one = other) : WellFormed root supply :=
  ⟨allocated, distinct, fun _ within _ member => Tree.child_mem_postOrder within member⟩

theorem WellFormed.of_nodup {root : ν} {supply : Supply}
    (allocated : ∀ node ∈ Tree.postOrder root, (identity node).index < supply.allocated)
    (distinct : ((Tree.postOrder root).map identity).Nodup) : WellFormed root supply :=
  .of allocated fun _ first _ second same => List.inj_on_of_nodup_map distinct first second same

namespace Arena
variable {nodes : Set ν} {supply : Supply}

theorem mono {later : Supply} (arena : Arena nodes supply) (more : supply.allocated ≤ later.allocated) :
    Arena nodes later :=
  ⟨fun node member => Nat.lt_of_lt_of_le (arena.allocated node member) more, arena.distinct, arena.closed⟩

theorem subtree {root node : ν} (arena : Arena nodes supply) (present : root ∈ nodes)
    (within : node ∈ Tree.postOrder root) : node ∈ nodes := by
  rcases Tree.mem_postOrder.mp within with same | ⟨child, member, below⟩
  · exact same ▸ present
  · exact arena.subtree (arena.closed root present child member) below
termination_by Tree.nodeCount root
decreasing_by exact Tree.nodeCount_lt member

/-- The identity drawn next is that of no node yet. -/
theorem drawn_ne {other : ν} (arena : Arena nodes supply) (member : other ∈ nodes) :
    identity other ≠ supply.draw.1 := by
  intro same
  have bound := arena.allocated other member
  rw [same] at bound
  exact Nat.lt_irrefl _ bound

theorem drawn_different {node other : ν} (arena : Arena nodes supply) (member : other ∈ nodes)
    (named : identity node = supply.draw.1) : sameNode node other = false := by
  rw [Bool.eq_false_iff, ne_eq, sameNode_iff]
  exact fun same => arena.drawn_ne member (same.symm.trans named)

/-- A node under a new identity can join, once its children are there. -/
theorem insert {node : ν} (arena : Arena nodes supply) (named : identity node = supply.draw.1)
    (below : ∀ child ∈ Tree.children node, child ∈ nodes) :
    Arena (Insert.insert node nodes) supply.draw.2 := by
  have newer : ∀ other ∈ nodes, identity other ≠ identity node :=
    fun other member same => arena.drawn_ne member (same.trans named)
  refine ⟨?_, ?_, ?_⟩
  · intro other member
    rcases Set.mem_insert_iff.mp member with same | old
    · rw [same, named]
      exact Nat.lt_succ_self _
    · exact Nat.lt_succ_of_lt (arena.allocated other old)
  · intro one first other second same
    rcases Set.mem_insert_iff.mp first with rfl | old
    · rcases Set.mem_insert_iff.mp second with rfl | earlier
      · rfl
      · exact False.elim (newer other earlier same.symm)
    · rcases Set.mem_insert_iff.mp second with rfl | earlier
      · exact False.elim (newer one old same)
      · exact arena.distinct one old other earlier same
  · intro other member child present
    rcases Set.mem_insert_iff.mp member with rfl | old
    · exact Set.mem_insert_of_mem _ (below child present)
    · exact Set.mem_insert_of_mem _ (arena.closed other old child present)

/-- Nodes that are pairwise the same are equal. -/
theorem eq_of_sameNodes {left right : List ν} (arena : Arena nodes supply)
    (size : left.length = right.length) (lefts : ∀ node ∈ left, node ∈ nodes)
    (rights : ∀ node ∈ right, node ∈ nodes)
    (same : ∀ pair ∈ left.zip right, sameNode pair.1 pair.2 = true) : left = right := by
  induction left generalizing right with
  | nil => exact (List.length_eq_zero_iff.mp size.symm).symm
  | cons one rest ih =>
    cases right with
    | nil => cases size
    | cons other others =>
      have head : one = other := arena.distinct one (lefts one (by simp)) other (rights other (by simp))
        (sameNode_iff.mp (same (one, other) (by simp)))
      have tail : rest = others := ih (Nat.succ.inj size) (fun node member => lefts node (by simp [member]))
        (fun node member => rights node (by simp [member])) (fun pair member => same pair (by simp [member]))
      rw [head, tail]

end Arena

theorem WellFormed.leaf {node : ν} {supply : Supply} (none : Tree.children node = [])
    (allocated : (identity node).index < supply.allocated) : WellFormed node supply := by
  refine .of ?_ ?_
  · intro inner within
    rwa [(Tree.mem_postOrder_of_leaf none).mp within]
  · intro one first other second _
    rw [(Tree.mem_postOrder_of_leaf none).mp first, (Tree.mem_postOrder_of_leaf none).mp second]

/-- A new node over a well-formed tree, however often it is a child, makes a well-formed tree. -/
theorem WellFormed.parent {node child : ν} {supply : Supply} (formed : WellFormed child supply)
    (only : ∀ other, other ∈ Tree.children node ↔ other = child) (named : identity node = supply.draw.1) :
    WellFormed node supply.draw.2 := by
  have nodes : {inner | inner ∈ Tree.postOrder node} = Insert.insert node {inner | inner ∈ Tree.postOrder child} := by
    ext inner
    show inner ∈ Tree.postOrder node ↔ inner = node ∨ inner ∈ Tree.postOrder child
    rw [Tree.mem_postOrder]
    simp only [only, exists_eq_left]
  unfold WellFormed
  rw [nodes]
  refine Arena.insert formed named ?_
  intro other member
  exact (only other).mp member ▸ Tree.root_mem_postOrder child

/-- Rebuilding over as many children as before gives the node itself, if they are the same, and a new
copy otherwise. -/
theorem Tree.rebuild_returns {S : Type} [Supplied S] {node : ν} {mapped : List ν} {state : S}
    (size : (Tree.children node).length = mapped.length) :
    Returns (Tree.rebuild node mapped : EStateM Interruption S ν) state fun result after =>
      (result = node ∧ after = state ∧
        ∀ pair ∈ (Tree.children node).zip mapped, sameNode pair.1 pair.2 = true) ∨
      (result = Tree.copyOver node mapped (Supplied.supply state).draw.1 ∧
        after = Supplied.withSupply state (Supplied.supply state).draw.2 ∧
        ∃ pair ∈ (Tree.children node).zip mapped, ¬ sameNode pair.1 pair.2 = true) := by
  unfold Tree.rebuild
  simp only [size, ne_eq, not_true_eq_false, if_false]
  split
  · rename_i same
    exact .pure (.inl ⟨rfl, rfl, List.all_eq_true.mp same⟩)
  · rename_i different
    refine .inr ⟨rfl, rfl, ?_⟩
    simpa using different

/-- Over nodes that exist beside it, a node is rebuilt into a node over exactly those: itself, or a new
copy that is another node. -/
theorem Arena.rebuild_returns [LawfulTree ν] {S : Type} [Supplied S] {nodes : Set ν} {node : ν}
    {mapped : List ν} {state : S} (arena : Arena nodes (Supplied.supply state)) (present : node ∈ nodes)
    (size : (Tree.children node).length = mapped.length) (joined : ∀ child ∈ mapped, child ∈ nodes) :
    Returns (Tree.rebuild node mapped : EStateM Interruption S ν) state fun result after =>
      Tree.children result = mapped ∧ ((result = node ∧ after = state) ∨
        (result = Tree.copyOver node mapped (Supplied.supply state).draw.1 ∧
          after = Supplied.withSupply state (Supplied.supply state).draw.2 ∧
          ¬ sameNode result node = true)) := by
  refine (Tree.rebuild_returns size).imp ?_
  intro result after outcome
  rcases outcome with ⟨rfl, rfl, same⟩ | ⟨rfl, rfl, -⟩
  · exact ⟨arena.eq_of_sameNodes size (arena.closed result present) joined same, .inl ⟨rfl, rfl⟩⟩
  · refine ⟨LawfulTree.children_copyOver _ _ _ size.symm, .inr ⟨rfl, rfl, ?_⟩⟩
    rw [sameNode_iff, LawfulTree.identity_copyOver]
    exact fun same => arena.drawn_ne present same.symm

end Arena
end QueryOptimizer
