import QueryOptimizer.Error
import QueryOptimizer.Identity.Supply

/-!
Trees of nodes with identities. Nodes are immutable: a change builds a new node, under a new
identity, and leaves the old one in place.
-/
namespace QueryOptimizer

/-- The sum of what `count` gives for each element of a list. -/
def totalOf (count : α → Nat) : List α → Nat
  | [] => 0
  | first :: rest => count first + totalOf count rest

theorem totalOf_append (count : α → Nat) (left right : List α) :
    totalOf count (left ++ right) = totalOf count left + totalOf count right := by
  induction left with
  | nil => simp [totalOf]
  | cons first rest ih => simp only [List.cons_append, totalOf, ih, Nat.add_assoc]

theorem le_totalOf (count : α → Nat) {element : α} {elements : List α}
    (member : element ∈ elements) : count element ≤ totalOf count elements := by
  induction elements with
  | nil => cases member
  | cons first rest ih =>
    rcases List.mem_cons.mp member with rfl | later
    · exact Nat.le_add_right _ _
    · exact Nat.le_trans (ih later) (Nat.le_add_left _ _)

/-- Types whose values are nodes of a finite tree. The operator is the kind of a node. -/
class Tree (ν : Type) (ω : outParam Type) extends Identified ν where
  operator : ν → ω
  children : ν → List ν
  /-- The same kind of node over other children, under the given identity. -/
  copyOver : ν → List ν → NodeId → ν
  nodeCount : ν → Nat
  nodeCount_eq : ∀ node, nodeCount node = 1 + totalOf nodeCount (children node)

namespace Tree
variable {ν ω : Type} [Tree ν ω]

theorem nodeCount_pos (node : ν) : 0 < nodeCount node := by
  rw [nodeCount_eq]
  omega

theorem nodeCount_lt {node child : ν} (member : child ∈ children node) :
    nodeCount child < nodeCount node := by
  rw [nodeCount_eq node, Nat.add_comm]
  exact Nat.lt_succ_of_le (le_totalOf nodeCount member)

/-- A new node of the same kind as `node` over `children`. -/
def withChildren [Monad m] [MonadFresh m] (node : ν) (children : List ν) : m ν := do
  let id ← fresh
  return copyOver node children id

/-- `node` itself if `mapped` are the very children it has, and a copy of it over `mapped`
otherwise. -/
def rebuild [Monad m] [MonadFresh m] [MonadRaise m] (node : ν) (mapped : List ν) : m ν :=
  if (children node).length ≠ mapped.length then raise .unmappedTree
  else if ((children node).zip mapped).all fun pair => sameNode pair.1 pair.2 then pure node
  else withChildren node mapped

end Tree
end QueryOptimizer
