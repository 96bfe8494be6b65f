import QueryOptimizer.Proofs.Computation
import QueryOptimizer.Tree.Traversal

/-!
Folds of trees. Working off pending visits comes to the same as recursion over the tree: the children
of a node from left to right, and then the node itself.
-/
namespace QueryOptimizer

/-- A list of results that is as long as the list it was computed from may be assumed to be. -/
theorem mapM_bind_congr {m : Type → Type} [Monad m] [LawfulMonad m] {α β γ : Type} (step : α → m β)
    (elements : List α) {one other : List β → m γ}
    (same : ∀ results, results.length = elements.length → one results = other results) :
    elements.mapM step >>= one = elements.mapM step >>= other := by
  induction elements generalizing one other with
  | nil => simpa using same [] rfl
  | cons element rest ih =>
    simp only [List.mapM_cons, bind_assoc, pure_bind]
    congr 1
    funext result
    exact ih fun results size => same (result :: results) (by simp [size])

/-- Mapped in the end, the results of steps are those of steps that map theirs. -/
theorem map_mapM {m : Type → Type} [Monad m] [LawfulMonad m] {α β γ : Type} {step : α → m β} {image : α → m γ}
    (view : β → γ) (elements : List α) (steps : ∀ element ∈ elements, view <$> step element = image element) :
    List.map view <$> elements.mapM step = elements.mapM image := by
  induction elements with
  | nil => simp
  | cons element rest ih =>
    rw [List.mapM_cons, List.mapM_cons, ← steps element (by simp),
      ← ih fun other member => steps other (by simp [member])]
    simp only [map_bind, map_pure, bind_map_left, List.map_cons]

/-- Steps over lists that are put together come to what steps over each of the lists come to. -/
theorem mapM_flatMap {m : Type → Type} [Monad m] [LawfulMonad m] {α β γ : Type} (step : α → m β)
    (parts : γ → List α) (wholes : List γ) :
    (wholes.flatMap parts).mapM step = List.flatten <$> wholes.mapM fun whole => (parts whole).mapM step := by
  induction wholes with
  | nil => simp
  | cons whole rest ih =>
    rw [List.flatMap_cons, List.mapM_append, ih, List.mapM_cons]
    simp only [map_bind, map_pure, bind_map_left, List.flatten_cons]

namespace Tree
variable {ν ω ρ : Type} [Tree ν ω]

theorem totalOf_children_lt (node : ν) (rest : List ν) :
    totalOf nodeCount (children node) < totalOf nodeCount (node :: rest) := by
  simp only [totalOf, nodeCount_eq node]
  omega

theorem totalOf_rest_lt (node : ν) (rest : List ν) :
    totalOf nodeCount rest < totalOf nodeCount (node :: rest) := by
  have positive := nodeCount_pos node
  simp only [totalOf]
  omega

section Fold
variable {m : Type → Type} [Monad m]

/-- Maps the children from left to right, and then the node with their results. -/
def fold (f : ν → List ρ → m ρ) (node : ν) : m ρ := do
  let results ← (children node).attach.mapM fun child => fold f child.1
  f node results
termination_by nodeCount node
decreasing_by exact nodeCount_lt child.2

theorem fold_eq [LawfulMonad m] (f : ν → List ρ → m ρ) (node : ν) :
    fold f node = (children node).mapM (fold f) >>= f node := by
  rw [fold]
  congr 1
  exact List.mapM_subtype (fun _ _ => rfl) |>.trans (by simp)

variable [LawfulMonad m]

/-- What is left behind may be mapped step by step as well as in the end. -/
theorem map_fold {τ : Type} {f : ν → List ρ → m ρ} {image : ν → List τ → m τ} (view : ρ → τ)
    (steps : ∀ node results, view <$> f node results = image node (results.map view)) (node : ν) :
    view <$> fold f node = fold image node := by
  have below : List.map view <$> (children node).mapM (fold f) = (children node).mapM (fold image) :=
    map_mapM view (children node) fun child _ => map_fold view steps child
  rw [fold_eq, fold_eq, ← below, map_bind, bind_map_left]
  simp only [steps]
termination_by nodeCount node
decreasing_by rename_i member; exact nodeCount_lt member

variable [MonadRaise m]

/-- The visits to come before `pending` leave the results of their nodes, latest first. -/
theorem mapVisits_entries (f : ν → List ρ → m ρ) (nodes : List ν) (pending : List (Visit ν))
    (results : List ρ) :
    mapVisits f (entries nodes ++ pending) results =
      nodes.mapM (fold f) >>= fun mapped => mapVisits f pending (mapped.reverse ++ results) := by
  match nodes with
  | [] => simp [entries]
  | node :: rest =>
    have smaller := totalOf_children_lt node rest
    have fewer := totalOf_rest_lt node rest
    have entered : mapVisits f (entries (node :: rest) ++ pending) results =
        mapVisits f (entries (children node) ++ Visit.leave node :: (entries rest ++ pending)) results := by
      simp only [entries, List.map_cons, List.cons_append]
      rw [mapVisits]
      rfl
    rw [entered, mapVisits_entries f (children node), List.mapM_cons, fold_eq]
    simp only [bind_assoc, pure_bind]
    apply mapM_bind_congr
    intro mapped size
    have enough : ¬ (mapped.reverse ++ results).length < (children node).length := by
      simp [size]
    rw [mapVisits]
    simp only [enough, if_false]
    have taken : ((mapped.reverse ++ results).take (children node).length).reverse = mapped := by
      rw [List.take_left' (by simp [size]), List.reverse_reverse]
    have left : (mapped.reverse ++ results).drop (children node).length = results :=
      List.drop_left' (by simp [size])
    rw [taken, left]
    congr 1
    funext result
    rw [mapVisits_entries f rest]
    simp
termination_by totalOf nodeCount nodes

/-- The traversal over pending visits is the recursive fold. -/
theorem mapPostOrder_eq_fold (f : ν → List ρ → m ρ) (root : ν) : mapPostOrder f root = fold f root := by
  have visited := mapVisits_entries f [root] [] []
  simp only [entries, List.map_cons, List.map_nil, List.append_nil, List.mapM_cons, List.mapM_nil,
    bind_assoc, pure_bind, List.reverse_cons, List.reverse_nil, List.nil_append] at visited
  rw [mapPostOrder, visited]
  simp only [mapVisits, bind_assoc, pure_bind]
  exact bind_pure _

end Fold

/-- The visits to come before `pending` leave the nodes of one tree after the other. -/
theorem leaveOrder_entries (nodes : List ν) (pending : List (Visit ν)) :
    leaveOrder (entries nodes ++ pending) = nodes.flatMap postOrder ++ leaveOrder pending := by
  match nodes with
  | [] => rfl
  | node :: rest =>
    have smaller := totalOf_children_lt node rest
    have fewer := totalOf_rest_lt node rest
    have entered (later : List (Visit ν)) : leaveOrder (Visit.enter node :: later) =
        (children node).flatMap postOrder ++ node :: leaveOrder later := by
      rw [leaveOrder, leaveOrder_entries (children node), leaveOrder]
    have own : postOrder node = (children node).flatMap postOrder ++ [node] := by
      rw [postOrder, entered, leaveOrder]
    calc leaveOrder (Visit.enter node :: (entries rest ++ pending))
        = (children node).flatMap postOrder ++ node :: leaveOrder (entries rest ++ pending) := entered _
      _ = postOrder node ++ (rest.flatMap postOrder ++ leaveOrder pending) := by
        rw [leaveOrder_entries rest, own, List.append_assoc, List.singleton_append]
      _ = (node :: rest).flatMap postOrder ++ leaveOrder pending := by
        rw [List.flatMap_cons, List.append_assoc]
termination_by totalOf nodeCount nodes

theorem postOrder_eq (node : ν) : postOrder node = (children node).flatMap postOrder ++ [node] := by
  rw [postOrder, leaveOrder, leaveOrder_entries, leaveOrder, leaveOrder]

end Tree
end QueryOptimizer
