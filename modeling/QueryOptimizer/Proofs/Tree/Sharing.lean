import QueryOptimizer.Proofs.Tree.Descent
import QueryOptimizer.Proofs.Tree.Renaming

/-!
Trees that share nodes. Two trees of one shape are compared node by node along the paths from their roots;
what is not touched at a path is the same node in both.
-/
namespace QueryOptimizer

namespace Renaming

/-- None of the aliases is renamed. -/
def Spares (names : Renaming) (aliases : AliasSet) : Prop :=
  ∀ symbol ∈ aliases, names.renames symbol = false

variable {names : Renaming}

theorem spares_empty : names.Spares ∅ := by
  simp [Spares]

theorem spares_of {symbol : Alias} : names.Spares (AliasSet.of symbol) ↔ names.renames symbol = false := by
  simp [Spares, AliasSet.of]

theorem spares_union {one other : AliasSet} :
    names.Spares (one ∪ other) ↔ names.Spares one ∧ names.Spares other := by
  simp only [Spares, Std.ExtTreeSet.mem_union_iff, or_imp, forall_and]

theorem Spares.apply_eq {aliases : AliasSet} (spares : names.Spares aliases) :
    ∀ symbol ∈ aliases, names.apply symbol = symbol :=
  fun symbol member => apply_of_not_renames (spares symbol member)

end Renaming

/-- Pairs may be taken to start from elements of the list. -/
theorem forall₂_imp_of_mem {α β : Type} {related weaker : α → β → Prop} {elements : List α} {images : List β}
    (all : List.Forall₂ related elements images)
    (each : ∀ element ∈ elements, ∀ image, related element image → weaker element image) :
    List.Forall₂ weaker elements images :=
  ((List.forall₂_and_left elements images).mpr ⟨each, all⟩).imp fun _ image known => known.1 image known.2

variable {ν ω : Type} [Tree ν ω]

/-- The image of a node is the node itself if that is spared, and a new node otherwise. -/
structure Renewed (spared : ν → Prop) (first : Nat) (node image : ν) : Prop where
  kept : spared node → image = node
  new : ¬ spared node → first ≤ (identity image).index

namespace Renewed
variable {spared : ν → Prop} {first : Nat}

theorem sameNode_iff {node image : ν} (renewed : Renewed spared first node image)
    (old : (identity node).index < first) : sameNode node image = true ↔ spared node := by
  rw [QueryOptimizer.sameNode_iff]
  constructor
  · intro same
    by_contra changed
    exact absurd (same ▸ renewed.new changed) (Nat.not_le.mpr old)
  · intro untouched
    rw [renewed.kept untouched]

theorem sameNodes_iff {nodes images : List ν} (each : List.Forall₂ (Renewed spared first) nodes images)
    (old : ∀ node ∈ nodes, (identity node).index < first) :
    (∀ pair ∈ nodes.zip images, sameNode pair.1 pair.2 = true) ↔ ∀ node ∈ nodes, spared node := by
  induction each with
  | nil => simp
  | cons head _ ih =>
    obtain ⟨oldHead, old⟩ := List.forall_mem_cons.mp old
    rw [List.zip_cons_cons, List.forall_mem_cons, List.forall_mem_cons, ih old, head.sameNode_iff oldHead]

/-- A node is rebuilt unless all its children are spared. -/
theorem rebuild {node : ν} {images : List ν} {state : Supply}
    (each : List.Forall₂ (Renewed spared first) (Tree.children node) images)
    (old : ∀ child ∈ Tree.children node, (identity child).index < first) :
    Returns (Tree.rebuild node images : EStateM Interruption Supply ν) state fun image after =>
      (image = node ∧ after = state ∧ ∀ child ∈ Tree.children node, spared child) ∨
      (image = Tree.copyOver node images state.draw.1 ∧ after = state.draw.2 ∧
        ¬ ∀ child ∈ Tree.children node, spared child) := by
  refine (Tree.rebuild_returns each.length_eq).imp ?_
  rintro image after (⟨same, unchanged, all⟩ | ⟨copy, drawn, some⟩)
  · exact .inl ⟨same, unchanged, (sameNodes_iff each old).mp all⟩
  · refine .inr ⟨copy, drawn, fun untouched => ?_⟩
    obtain ⟨pair, member, different⟩ := some
    exact different ((sameNodes_iff each old).mpr untouched pair member)

end Renewed

section Later
variable {ε α β : Type} {first : Nat}

/-- The supply has come to hand out the identities from `world` on. -/
def Supply.Reached (first world : Nat) (supply : Supply) : Prop :=
  world = supply.allocated ∧ first ≤ world

/-- From a supply that has handed out what comes before `first`, the computation goes on to a later one, up to
which its result is known. -/
def Proceeds (first : Nat) (computation : EStateM ε Supply α) (known : Nat → α → Prop) : Prop :=
  ∀ state : Supply, first ≤ state.allocated →
    Returns computation state fun result after => state.allocated ≤ after.allocated ∧ known after.allocated result

variable {related : Nat → α → β → Prop}

theorem Proceeds.onward {computation : EStateM ε Supply α} {known : Nat → α → Prop}
    (proceeds : Proceeds first computation known) {world : Nat} {state : Supply}
    (reached : Supply.Reached first world state) :
    Returns computation state fun result after =>
      Onward (Supply.Reached first) world after fun later => known later result := by
  obtain ⟨rfl, above⟩ := reached
  refine (proceeds state above).imp ?_
  rintro result after ⟨more, held⟩
  exact ⟨after.allocated, more, ⟨rfl, above.trans more⟩, held⟩

theorem Proceeds.of_onward {computation : EStateM ε Supply α} {known : Nat → α → Prop}
    (onward : ∀ world state, Supply.Reached first world state → Returns computation state fun result after =>
      Onward (Supply.Reached first) world after fun later => known later result) :
    Proceeds first computation known := by
  intro state above
  refine (onward _ state ⟨rfl, above⟩).imp ?_
  rintro result after ⟨_, more, ⟨rfl, -⟩, held⟩
  exact ⟨more, held⟩

theorem Proceeds.mapM {step : α → EStateM ε Supply β} (elements : List α)
    (mono : ∀ world later element result, world ≤ later → related world element result → related later element result)
    (steps : ∀ element ∈ elements, Proceeds first (step element) fun later => related later element) :
    Proceeds first (elements.mapM step) fun later => List.Forall₂ (related later) elements :=
  .of_onward fun _ _ reached =>
    Ends.mapM _ related mono elements (fun element member _ _ fit => (steps element member).onward fit) reached

end Later

/-- A traversal proceeds if its steps do, each from what has become of the children. -/
theorem Tree.mapPostOrder_proceeds {ε ρ : Type} [MonadRaise (EStateM ε Supply)]
    {f : ν → List ρ → EStateM ε Supply ρ} {first : Nat} (related : Nat → ν → ρ → Prop)
    (mono : ∀ world later node result, world ≤ later → related world node result → related later node result)
    (root : ν)
    (steps : ∀ node ∈ postOrder root, ∀ state results, first ≤ state.allocated →
      List.Forall₂ (related state.allocated) (children node) results →
      Returns (f node results) state fun result after =>
        state.allocated ≤ after.allocated ∧ related after.allocated node result) :
    Proceeds first (mapPostOrder f root) fun later => related later root := by
  refine .of_onward fun world state reached => mapPostOrder_ends _ related mono root ?_ reached
  rintro node within _ state results ⟨rfl, above⟩ below
  refine (steps node within state results above below).imp ?_
  rintro result after ⟨more, held⟩
  exact ⟨after.allocated, more, ⟨rfl, above.trans more⟩, held⟩

namespace Tree

/-- The node that is reached from the root by taking the children at these positions. -/
def at? : List Nat → ν → Option ν
  | [], node => some node
  | position :: rest, node => (children node)[position]?.bind (at? rest)

theorem mem_postOrder_of_at? {path : List Nat} {root node : ν} (found : at? path root = some node) :
    node ∈ postOrder root := by
  induction path generalizing root with
  | nil => exact Option.some.inj found ▸ root_mem_postOrder root
  | cons position rest ih =>
    obtain ⟨child, taken, found⟩ := Option.bind_eq_some_iff.mp found
    exact mem_postOrder_of_child (List.mem_of_getElem? taken) (ih found)

section Related
variable {related : ν → ν → Prop}
variable (below : ∀ node image, related node image → List.Forall₂ related (children node) (children image))
include below

/-- What relates nodes and then their children relates the nodes along each path. -/
theorem at?_of_related {path : List Nat} {root node image : ν} (roots : related root image)
    (found : at? path root = some node) : ∃ inner, at? path image = some inner ∧ related node inner := by
  induction path generalizing root image with
  | nil => exact ⟨image, rfl, Option.some.inj found ▸ roots⟩
  | cons position rest ih =>
    obtain ⟨child, taken, found⟩ := Option.bind_eq_some_iff.mp found
    obtain ⟨bound, rfl⟩ := List.getElem?_eq_some_iff.mp taken
    have each := below root image roots
    have boundToo : position < (children image).length := each.length_eq ▸ bound
    obtain ⟨inner, reached, kept⟩ := ih (each.get bound boundToo) found
    exact ⟨inner, by rw [at?, List.getElem?_eq_getElem boundToo]; exact reached, kept⟩

/-- Each node of an image is the image of some node. -/
theorem exists_related_of_mem_postOrder {root image inner : ν} (roots : related root image)
    (within : inner ∈ postOrder image) : ∃ node ∈ postOrder root, related node inner := by
  induction root using childInduction generalizing image with
  | step root ih =>
    rcases mem_postOrder.mp within with rfl | ⟨child, member, further⟩
    · exact ⟨root, root_mem_postOrder root, roots⟩
    · obtain ⟨position, bound, rfl⟩ := List.mem_iff_getElem.mp member
      have each := below root image roots
      have boundToo : position < (children root).length := each.length_eq ▸ bound
      obtain ⟨node, inside, kept⟩ := ih _ (List.getElem_mem boundToo) (each.get boundToo bound) further
      exact ⟨node, mem_postOrder_of_child (List.getElem_mem boundToo) inside, kept⟩

end Related

/-- Along each path, `renamed` has the very node that `root` has there if that refers to no renamed alias,
and another node if it does. -/
def Shares (correlatedTo : ν → AliasSet) (content : ν → ν → Prop) (names : Renaming) (root renamed : ν) : Prop :=
  ∀ path node, at? path root = some node → ∃ image, at? path renamed = some image ∧
    (names.Spares (correlatedTo node) → image = node) ∧
    (¬ names.Spares (correlatedTo node) → sameNode node image = false) ∧ content node image

end Tree
end QueryOptimizer
