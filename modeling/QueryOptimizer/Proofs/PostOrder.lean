import QueryOptimizer.Proofs.Simplification.Projection

/-!
Traversals in post-order are recursion over the tree. Working off pending visits runs the mapped function for the
same nodes as the recursion does, on the same results of their children and in the same order, and stops where one
of these calls fails.
-/
namespace QueryOptimizer.Tree
variable {ν ω ρ ε S α β : Type} [Tree ν ω]

/-- A call of a mapped function: the node, what its children have come to, and the state that the call starts in. -/
structure MapCall (ν ρ S : Type) where
  node : ν
  results : List ρ
  state : S

/-- `f`, with a list kept of the calls made so far. -/
def noting (f : ν → List ρ → EStateM ε S ρ) (node : ν) (results : List ρ) :
    EStateM ε (S × List (MapCall ν ρ S)) ρ := fun (state, calls) =>
  let noted := calls ++ [⟨node, results, state⟩]
  match f node results state with
  | .ok result after => .ok result (after, noted)
  | .error failure after => .error failure (after, noted)

variable {f : ν → List ρ → EStateM ε S ρ}

/-- The call returns a result. -/
def MapCall.Succeeds (f : ν → List ρ → EStateM ε S ρ) (call : MapCall ν ρ S) : Prop :=
  ∃ result after, f call.node call.results call.state = .ok result after

/-- The call fails, and leaves the state as given. -/
def MapCall.Fails (f : ν → List ρ → EStateM ε S ρ) (call : MapCall ν ρ S) (failure : ε) (after : S) : Prop :=
  f call.node call.results call.state = .error failure after

/-- The computation calls `f` once for each of the nodes, in their order. Only the last call that is made can fail,
and nothing else fails but that call. -/
def CallsFor (f : ν → List ρ → EStateM ε S ρ) (nodes : List ν)
    (computation : EStateM ε (S × List (MapCall ν ρ S)) α) : Prop :=
  ∀ state calls, Ends computation (state, calls)
    (fun _ after => ∃ made, after.2 = calls ++ made ∧ (∀ call ∈ made, call.Succeeds f) ∧
      made.map MapCall.node = nodes)
    (fun failure after => ∃ made last rest, after.2 = calls ++ (made ++ [last]) ∧
      (∀ call ∈ made, call.Succeeds f) ∧ last.Fails f failure after.1 ∧
      nodes = made.map MapCall.node ++ last.node :: rest)

namespace CallsFor
variable {nodes others : List ν} {computation : EStateM ε (S × List (MapCall ν ρ S)) α}

theorem pure (result : α) : CallsFor f [] (Pure.pure result : EStateM ε (S × List (MapCall ν ρ S)) α) :=
  fun _ calls => .pure ⟨[], (List.append_nil calls).symm, List.forall_mem_nil _, rfl⟩

theorem noting (node : ν) (results : List ρ) : CallsFor f [node] (noting f node results) := by
  intro state calls
  cases found : f node results state with
  | ok result after =>
    simp only [Ends, Tree.noting, found]
    exact ⟨_, rfl, List.forall_mem_singleton.mpr ⟨result, after, found⟩, rfl⟩
  | error failure after =>
    simp only [Ends, Tree.noting, found]
    exact ⟨[], _, [], rfl, List.forall_mem_nil _, found, rfl⟩

/-- The calls of a sequence are those of its parts, unless the first part fails. -/
theorem bind {next : α → EStateM ε (S × List (MapCall ν ρ S)) β} (first : CallsFor f nodes computation)
    (rest : ∀ result, CallsFor f others (next result)) : CallsFor f (nodes ++ others) (computation >>= next) := by
  intro state calls
  refine .bind ((first state calls).mono ?_ ?_)
  · rintro result ⟨middle, noted⟩ ⟨made, rfl, succeeded, rfl⟩
    refine (rest result middle _).mono ?_ ?_
    · rintro _ ⟨after, _⟩ ⟨more, rfl, succeeding, rfl⟩
      refine ⟨made ++ more, List.append_assoc .., ?_, List.map_append⟩
      exact List.forall_mem_append.mpr ⟨succeeded, succeeding⟩
    · rintro failure ⟨after, _⟩ ⟨more, last, left, rfl, succeeding, failed, rfl⟩
      refine ⟨made ++ more, last, left, by simp only [List.append_assoc], ?_, failed, ?_⟩
      · exact List.forall_mem_append.mpr ⟨succeeded, succeeding⟩
      · rw [List.map_append, List.append_assoc]
  · rintro failure ⟨after, _⟩ ⟨made, last, left, rfl, succeeded, failed, rfl⟩
    refine ⟨made, last, left ++ others, rfl, succeeded, failed, ?_⟩
    rw [List.append_assoc, List.cons_append]

theorem mapM {γ : Type} {step : γ → EStateM ε (S × List (MapCall ν ρ S)) β} {visited : γ → List ν}
    (elements : List γ) (steps : ∀ element ∈ elements, CallsFor f (visited element) (step element)) :
    CallsFor f (elements.flatMap visited) (elements.mapM step) := by
  induction elements with
  | nil => exact .pure []
  | cons element rest ih =>
    rw [List.mapM_cons, List.flatMap_cons]
    refine (steps element (List.mem_cons_self ..)).bind fun result => ?_
    have others := ih fun other member => steps other (List.mem_cons_of_mem _ member)
    exact List.append_nil (rest.flatMap visited) ▸ others.bind fun results => .pure (result :: results)

/-- Recursion over a tree calls the function for its nodes in post-order. -/
theorem fold (node : ν) : CallsFor f (postOrder node) (Tree.fold (Tree.noting f) node) := by
  induction node using childInduction with
  | step node ih =>
    rw [fold_eq, postOrder_eq]
    exact (CallsFor.mapM (children node) ih).bind fun results => .noting node results

end CallsFor

/-- Seen without the list of calls, a function that keeps one does nothing else. -/
theorem noting_projects (node : ν) (results : List ρ) :
    Projects Prod.fst (noting f node results) (f node results) := by
  rintro ⟨state, calls⟩
  cases found : f node results state <;> simp only [Ends, noting, found]

/-- Mapping a tree in post-order is recursion: the children of a node from left to right, up to the first failure, and
then the node with what they have come to. The function is called as in the recursion: for the same nodes, on the
same results, in the same states and order. If the traversal returns, then the calls are for exactly the nodes of the
post-order, which has a shared node once for every parent. If it fails, then as the last of its calls does: the calls
before that one have succeeded, and they are for the first nodes of the post-order. -/
theorem mapPostOrder_recurses [∀ S : Type, MonadRaise (EStateM ε S)] (f : ν → List ρ → EStateM ε S ρ) (root : ν) :
    (mapPostOrder f root = (children root).mapM (mapPostOrder f) >>= f root ∧ mapPostOrder f root = fold f root) ∧
    mapPostOrder (noting f) root = fold (noting f) root ∧
    postOrder root = (children root).flatMap postOrder ++ [root] ∧
    ∀ state, Ends (mapPostOrder (noting f) root) (state, [])
      (fun result after => mapPostOrder f root state = .ok result after.1 ∧
        (∀ call ∈ after.2, call.Succeeds f) ∧ after.2.map MapCall.node = postOrder root)
      (fun failure after => mapPostOrder f root state = .error failure after.1 ∧
        ∃ made last rest, after.2 = made ++ [last] ∧ (∀ call ∈ made, call.Succeeds f) ∧
          last.Fails f failure after.1 ∧ postOrder root = made.map MapCall.node ++ last.node :: rest) := by
  have mapped : mapPostOrder f = fold f := funext (mapPostOrder_eq_fold f)
  refine ⟨⟨?_, mapPostOrder_eq_fold f root⟩, mapPostOrder_eq_fold _ root, postOrder_eq root, fun state => ?_⟩
  · rw [mapped, ← fold_eq]
  · rw [mapPostOrder_eq_fold, mapPostOrder_eq_fold]
    refine ((fold_projects noting_projects root (state, [])).and (CallsFor.fold root state [])).mono ?_ ?_
    · rintro result ⟨after, _⟩ ⟨same, made, rfl, succeeded, visited⟩
      exact ⟨same, succeeded, visited⟩
    · rintro failure ⟨after, _⟩ ⟨same, made, last, rest, rfl, succeeded, failed, visited⟩
      exact ⟨same, made, last, rest, rfl, succeeded, failed, visited⟩

end QueryOptimizer.Tree
