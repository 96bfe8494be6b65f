import QueryOptimizer.Tree.Basic

/-!
Post-order traversals: every node comes after its children, and a node shared by several parents is
visited once for each of them.
-/
namespace QueryOptimizer.Tree
variable {ν ω : Type} [Tree ν ω]

/-- A traversal enters a node before its children and leaves it after them. -/
inductive Visit (ν : Type) where
  | enter (node : ν)
  | leave (node : ν)

/-- How many visits `visit` leads to, itself included. -/
def Visit.count : Visit ν → Nat
  | enter node => 2 * nodeCount node
  | leave _ => 1

def entries (nodes : List ν) : List (Visit ν) :=
  nodes.map .enter

theorem totalOf_entries (nodes : List ν) :
    totalOf Visit.count (entries nodes) = 2 * totalOf nodeCount nodes := by
  induction nodes with
  | nil => rfl
  | cons node rest ih =>
    simp only [entries, List.map_cons, totalOf, Visit.count] at ih ⊢
    omega

/-- Entering a node leaves fewer visits to come. -/
theorem count_entered (node : ν) (pending : List (Visit ν)) :
    totalOf Visit.count (entries (children node) ++ Visit.leave node :: pending) <
      totalOf Visit.count (Visit.enter node :: pending) := by
  simp only [totalOf_append, totalOf, totalOf_entries, Visit.count]
  have count := nodeCount_eq node
  omega

theorem count_left (node : ν) (pending : List (Visit ν)) :
    totalOf Visit.count pending < totalOf Visit.count (Visit.leave node :: pending) := by
  simp only [totalOf, Visit.count]
  omega

/-- The nodes that pending visits leave, in order. -/
def leaveOrder : List (Visit ν) → List ν
  | [] => []
  | .enter node :: pending => leaveOrder (entries (children node) ++ Visit.leave node :: pending)
  | .leave node :: pending => node :: leaveOrder pending
termination_by pending => totalOf Visit.count pending
decreasing_by
  · exact count_entered node pending
  · exact count_left node pending

/-- The nodes of the tree in post-order. -/
def postOrder (root : ν) : List ν :=
  leaveOrder [.enter root]

/-- Works off pending visits. `results` holds the results of the nodes left so far that no parent has
taken yet, latest first. -/
def mapVisits [Monad m] [MonadRaise m] (f : ν → List ρ → m ρ) :
    List (Visit ν) → List ρ → m (List ρ)
  | [], results => pure results
  | .enter node :: pending, results =>
    mapVisits f (entries (children node) ++ Visit.leave node :: pending) results
  | .leave node :: pending, results =>
    let arity := (children node).length
    if results.length < arity then raise .unmappedTree
    else do
      let result ← f node (results.take arity).reverse
      mapVisits f pending (result :: results.drop arity)
termination_by pending => totalOf Visit.count pending
decreasing_by
  · exact count_entered node pending
  · exact count_left node pending

/-- Maps the tree bottom-up: `f` runs once per visit of a node, after it has run on all children of
the node, and receives their results in order. -/
def mapPostOrder [Monad m] [MonadRaise m] (f : ν → List ρ → m ρ) (root : ν) : m ρ := do
  match ← mapVisits f [.enter root] [] with
  | [result] => pure result
  | _ => raise .unmappedTree

end QueryOptimizer.Tree
