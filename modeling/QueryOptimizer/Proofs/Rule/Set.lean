import QueryOptimizer.Proofs.DependencyOrder
import QueryOptimizer.Rule.Set

/-!
Builders in which every rule is added after the rules it depends on: such a set has its rules in the
order in which they were added.
-/
namespace QueryOptimizer.RuleSetBuilder
variable {ν ω α : Type}

/-- Every dependency of an entry is the name of a rule that was added earlier. -/
def AddedInOrder (builder : RuleSetBuilder ν ω α) : Prop :=
  ∀ entry ∈ builder.entries.zipIdx, ∀ dependency ∈ entry.1.2,
    ∃ position < entry.2, builder.position? dependency = some position

/-- A rule without dependencies can be added at any time. -/
theorem AddedInOrder.add {builder : RuleSetBuilder ν ω α} (inOrder : builder.AddedInOrder)
    (rule : Rule ν ω α) : (builder.add rule).AddedInOrder := by
  intro entry present dependency member
  have joined : (builder.add rule).entries = builder.entries ++ [(rule, [])] := rfl
  rw [joined, List.zipIdx_append] at present
  rcases List.mem_append.mp present with old | new
  · obtain ⟨position, lower, found⟩ := inOrder entry old dependency member
    refine ⟨position, lower, ?_⟩
    unfold position? at found ⊢
    rw [joined, List.findIdx?_append, found]
    rfl
  · simp only [List.zipIdx_cons, List.zipIdx_nil, List.mem_singleton] at new
    subst new
    cases member

/-- The first `count` positions, each with earlier positions as its dependencies. -/
structure OrdersFirst (count : Nat) (order : DependencyOrder Nat) : Prop where
  elements : order.elements = List.range count
  earlier : ∀ position dependency, dependency ∈ order.dependenciesOf position → dependency < position

theorem OrdersFirst.addDependency {count position dependency : Nat} {order : DependencyOrder Nat}
    (orders : OrdersFirst count order) (known : position < count) (lower : dependency < position) :
    OrdersFirst count (order.addDependency position dependency) := by
  have present : position ∈ order.elements := by simpa [orders.elements] using known
  have needed : dependency ∈ order.elements := by
    simpa [orders.elements] using Nat.lt_trans lower known
  constructor
  · rw [order.elements_addDependency, order.addElement_of_mem present, order.addElement_of_mem needed]
    exact orders.elements
  · intro other blocker member
    rcases order.mem_dependenciesOf_addDependency.mp member with old | ⟨same, new⟩
    · exact orders.earlier other blocker old
    · rw [← same, new]
      exact lower

theorem orderEntry_ok (builder : RuleSetBuilder ν ω α) {order : DependencyOrder Nat} {count : Nat}
    (orders : OrdersFirst count order) (entry : Rule ν ω α × List String)
    (resolved : ∀ dependency ∈ entry.2, ∃ position < count, builder.position? dependency = some position) :
    ∃ extended, builder.orderEntry order (entry, count) = .ok extended ∧
      OrdersFirst (count + 1) extended := by
  have absent : count ∉ order.elements := by simp [orders.elements]
  have added : OrdersFirst (count + 1) (order.addElement count) := by
    constructor
    · rw [order.addElement_of_not_mem absent, orders.elements, List.range_succ]
    · intro position dependency member
      rw [order.dependenciesOf_addElement] at member
      exact orders.earlier position dependency member
  unfold orderEntry
  generalize order.addElement count = extended at added
  obtain ⟨rule, dependencies⟩ := entry
  induction dependencies generalizing extended with
  | nil => exact ⟨extended, rfl, added⟩
  | cons dependency rest ih =>
    obtain ⟨position, lower, found⟩ := resolved dependency (by simp)
    rw [List.foldlM_cons, orderAfter, found]
    exact ih _ (added.addDependency (Nat.lt_succ_self count) lower)
      fun other member => resolved other (List.mem_cons_of_mem _ member)

theorem dependencyOrder_ok (builder : RuleSetBuilder ν ω α) (inOrder : builder.AddedInOrder) :
    ∃ order, builder.dependencyOrder = .ok order ∧ OrdersFirst builder.entries.length order := by
  suffices general : ∀ (entries : List (Rule ν ω α × List String)) (count : Nat) (order : DependencyOrder Nat),
      OrdersFirst count order →
      (∀ entry ∈ entries.zipIdx count, ∀ dependency ∈ entry.1.2,
        ∃ position < entry.2, builder.position? dependency = some position) →
      ∃ extended, (entries.zipIdx count).foldlM builder.orderEntry order = .ok extended ∧
        OrdersFirst (count + entries.length) extended by
    have start : OrdersFirst 0 DependencyOrder.empty :=
      ⟨rfl, by simp [DependencyOrder.empty, DependencyOrder.dependenciesOf]⟩
    simpa [dependencyOrder] using general builder.entries 0 .empty start inOrder
  intro entries
  induction entries with
  | nil =>
    intro count order orders _
    exact ⟨order, rfl, orders⟩
  | cons entry rest ih =>
    intro count order orders resolved
    rw [List.zipIdx_cons] at resolved ⊢
    obtain ⟨middle, first, ordered⟩ := builder.orderEntry_ok orders entry
      (resolved (entry, count) (by simp))
    obtain ⟨extended, others, final⟩ := ih (count + 1) middle ordered
      fun other member => resolved other (by simp [member])
    refine ⟨extended, ?_, by rwa [List.length_cons, Nat.add_comm rest.length, ← Nat.add_assoc]⟩
    rw [List.foldlM_cons, first]
    exact others

theorem OrdersFirst.topologicalOrder? {count : Nat} {order : DependencyOrder Nat}
    (orders : OrdersFirst count order) : order.topologicalOrder? = some (List.range count) := by
  have arranged : ∀ rest front, DependencyOrder.Arranged
      (fun position dependency => dependency ∈ order.dependenciesOf position)
      (List.range front) (List.range' front rest) := by
    intro rest
    induction rest with
    | zero =>
      intro front
      exact .nil
    | succ rest ih =>
      intro front
      rw [List.range'_succ]
      refine .cons ?_ (by simpa [List.range_succ] using ih (front + 1))
      intro dependency member
      exact List.mem_range.mpr (orders.earlier front dependency member)
  rw [← orders.elements]
  apply order.topologicalOrder?_of_arranged
  rw [orders.elements, List.range_eq_range']
  exact arranged count 0

/-- Taking the rules out of their slots from the front on gives all of them. -/
theorem takeInOrder_range' (front rules : List (Rule ν ω α)) :
    takeInOrder (List.range' front.length rules.length)
      (List.replicate front.length none ++ rules.map some) = .ok rules := by
  induction rules generalizing front with
  | nil => rfl
  | cons rule rest ih =>
    have found : (List.replicate front.length none ++ some rule :: rest.map some)[front.length]? =
        some (some rule) := by
      simp
    have emptied : (List.replicate front.length none ++ some rule :: rest.map some).set front.length none =
        List.replicate (front.length + 1) none ++ rest.map some := by
      simp [List.replicate_succ', List.set_append_right]
    have others := ih (front ++ [rule])
    rw [List.length_append, List.length_singleton] at others
    rw [List.length_cons, List.range'_succ, List.map_cons, takeInOrder, found, emptied, others]
    rfl

theorem build_of_addedInOrder (builder : RuleSetBuilder ν ω α) (inOrder : builder.AddedInOrder) :
    builder.build = .ok ⟨builder.entries.map Prod.fst⟩ := by
  obtain ⟨order, found, orders⟩ := builder.dependencyOrder_ok inOrder
  have taken := takeInOrder_range' [] (builder.entries.map Prod.fst)
  rw [List.length_map, List.map_map] at taken
  simp only [build, found, bind, Except.bind, orders.topologicalOrder?, List.range_eq_range']
  exact congrArg (Except.bind · fun rules => .ok (RuleSet.mk rules)) taken

/-- The rules of a builder in the order in which they were added. -/
def added (builder : RuleSetBuilder ν ω α) : List (Rule ν ω α) :=
  builder.entries.map Prod.fst

/-- A builder with the given rules, added one after the other without dependencies. -/
def inTurn (rules : List (Rule ν ω α)) : RuleSetBuilder ν ω α :=
  rules.foldl add empty

/-- Rules without dependencies make a set in the order in which they were added. -/
theorem build_inTurn (rules : List (Rule ν ω α)) : (inTurn rules).build = .ok ⟨rules⟩ := by
  suffices general : ∀ builder : RuleSetBuilder ν ω α, builder.AddedInOrder →
      (rules.foldl add builder).AddedInOrder ∧ (rules.foldl add builder).added = builder.added ++ rules by
    obtain ⟨inOrder, same⟩ := general empty fun _ present => nomatch present
    rw [inTurn, build_of_addedInOrder _ inOrder]
    exact congrArg (fun rules => Except.ok (RuleSet.mk rules)) same
  induction rules with
  | nil => exact fun builder inOrder => ⟨inOrder, (List.append_nil _).symm⟩
  | cons rule rest ih =>
    intro builder inOrder
    obtain ⟨later, same⟩ := ih (builder.add rule) (inOrder.add rule)
    refine ⟨later, same.trans ?_⟩
    rw [added, added, add, addAfter, List.map_append, List.append_assoc]
    rfl

end QueryOptimizer.RuleSetBuilder
