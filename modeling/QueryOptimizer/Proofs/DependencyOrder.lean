import QueryOptimizer.Proofs.Schedule

/-!
The order of elements that depend on one another: what is emitted lists every element once, after all
that it depends on, and as early as possible. Elements that are arranged so from the start stay in place,
and only a cycle keeps elements from being emitted.
-/
namespace QueryOptimizer.DependencyOrder
variable {α : Type} [Ord α] [Std.TransOrd α] [Std.LawfulEqOrd α] {order : DependencyOrder α}

section Adding
variable (order)

theorem elements_addElement_prefix (element : α) : order.elements <+: (order.addElement element).elements := by
  unfold addElement
  split
  · exact List.prefix_refl _
  · exact List.prefix_append _ _

theorem mem_foldl_addElement (elements : List α) {other : α} :
    other ∈ (elements.foldl addElement order).elements ↔ other ∈ order.elements ∨ other ∈ elements := by
  induction elements generalizing order with
  | nil => simp
  | cons element rest ih => rw [List.foldl_cons, ih, mem_addElement, List.mem_cons, or_assoc]

theorem addElement_of_mem {element : α} (present : element ∈ order.elements) :
    order.addElement element = order := by
  rw [addElement, dif_pos (contains_iff_mem.mpr present)]

theorem addElement_of_not_mem {element : α} (absent : element ∉ order.elements) :
    (order.addElement element).elements = order.elements ++ [element] := by
  rw [addElement, dif_neg fun present => absent (contains_iff_mem.mp present)]

@[simp] theorem dependenciesOf_addElement (element other : α) :
    (order.addElement element).dependenciesOf other = order.dependenciesOf other := by
  unfold addElement
  split <;> rfl

@[simp] theorem dependenciesOf_foldl_addElement (elements : List α) (other : α) :
    (elements.foldl addElement order).dependenciesOf other = order.dependenciesOf other := by
  induction elements generalizing order with
  | nil => rfl
  | cons element rest ih => rw [List.foldl_cons, ih, dependenciesOf_addElement]

theorem elements_addDependency (element dependency : α) :
    (order.addDependency element dependency).elements =
      ((order.addElement element).addElement dependency).elements :=
  rfl

theorem mem_dependenciesOf_addDependency {element dependency other blocker : α} :
    blocker ∈ (order.addDependency element dependency).dependenciesOf other ↔
      blocker ∈ order.dependenciesOf other ∨ element = other ∧ blocker = dependency := by
  have table : (order.addDependency element dependency).dependenciesOf other =
      if compare element other = .eq then (order.dependenciesOf element).insert dependency
      else order.dependenciesOf other := by
    have extended := dependenciesOf_addElement (order.addElement element) dependency
    simp only [addDependency, extended, dependenciesOf_addElement]
    unfold dependenciesOf
    rw [Std.ExtTreeMap.getElem?_insert]
    split
    · rfl
    · exact extended other |>.trans (dependenciesOf_addElement order element other)
  rw [table]
  by_cases same : element = other
  · subst same
    rw [if_pos Std.ReflCmp.compare_self, Std.ExtTreeSet.mem_insert, Std.LawfulEqOrd.compare_eq_iff_eq, or_comm]
    simp [eq_comm]
  · have apart : compare element other ≠ .eq := fun equal => same (Std.compare_eq_iff_eq.mp equal)
    simp [same, apart]

/-- Makes `element` depend on all the given elements. -/
abbrev addDependencies (order : DependencyOrder α) (element : α) (dependencies : List α) :
    DependencyOrder α :=
  dependencies.foldl (fun order dependency => order.addDependency element dependency) order

theorem elements_addDependency_of_mem {element : α} (present : element ∈ order.elements) (dependency : α) :
    (order.addDependency element dependency).elements = (order.addElement dependency).elements := by
  rw [elements_addDependency, order.addElement_of_mem present]

theorem elements_addDependencies_prefix {element : α} (present : element ∈ order.elements)
    (dependencies : List α) : order.elements <+: (order.addDependencies element dependencies).elements := by
  induction dependencies generalizing order with
  | nil => exact List.prefix_refl _
  | cons dependency rest ih =>
    have first : order.elements <+: (order.addDependency element dependency).elements := by
      rw [order.elements_addDependency_of_mem present]
      exact order.elements_addElement_prefix dependency
    exact first.trans (ih _ (first.mem present))

theorem mem_addDependencies {element other : α} (present : element ∈ order.elements)
    (dependencies : List α) :
    other ∈ (order.addDependencies element dependencies).elements ↔
      other ∈ order.elements ∨ other ∈ dependencies := by
  induction dependencies generalizing order with
  | nil => simp [addDependencies]
  | cons dependency rest ih =>
    have extended := order.elements_addDependency_of_mem present dependency
    have known : element ∈ (order.addDependency element dependency).elements := by
      rw [extended]
      exact mem_addElement.mpr (.inl present)
    rw [addDependencies, List.foldl_cons]
    rw [ih _ known, extended, mem_addElement, List.mem_cons, or_assoc]

theorem mem_dependenciesOf_addDependencies {element other blocker : α} (dependencies : List α) :
    blocker ∈ (order.addDependencies element dependencies).dependenciesOf other ↔
      blocker ∈ order.dependenciesOf other ∨ element = other ∧ blocker ∈ dependencies := by
  induction dependencies generalizing order with
  | nil => simp
  | cons dependency rest ih =>
    rw [addDependencies, List.foldl_cons]
    rw [ih, mem_dependenciesOf_addDependency, List.mem_cons, and_or_left, or_assoc]

end Adding

variable [DecidableEq α]

/-- What is emitted is as greedy as can be and leaves nothing that is ready. -/
theorem emissionOrder_ok (order : DependencyOrder α) :
    ∃ emitted, Greedy order.DependsOn order.elements [] emitted ∧
      (∀ element, ¬ Ready order.DependsOn order.elements emitted element) ∧
      order.emissionOrder = .ok (if emitted.length = order.size then some emitted else none) := by
  obtain ⟨schedule, started, tracks⟩ := order.schedule_ok
  obtain ⟨emitted, ended, greedy, finished⟩ := emitReady_ok tracks
  refine ⟨emitted, greedy, finished, ?_⟩
  rw [emissionOrder, started]
  simp only [bind, Except.bind, ended, pure, Except.pure]

omit [Std.LawfulEqOrd α] in
/-- Everything is emitted unless an element depends on itself. -/
theorem length_emitted_eq_size_iff {emitted : List α}
    (greedy : Greedy order.DependsOn order.elements [] emitted)
    (finished : ∀ element, ¬ Ready order.DependsOn order.elements emitted element) :
    emitted.length = order.size ↔ ∀ element, ¬ Relation.TransGen order.DependsOn element element := by
  constructor
  · intro whole element cycle
    obtain ⟨dependency, needed, -⟩ := Relation.TransGen.head'_iff.mp cycle
    have listed := (mem_elements_of_dependency needed).1
    exact greedy.arranged.acyclic element ((greedy.perm whole).mem_iff.mpr listed) cycle
  · intro acyclic
    have whole : ∀ element ∈ order.elements, element ∈ emitted := by
      intro element listed
      by_contra missing
      have left : element ∈ order.elements.filter (· ∉ emitted) :=
        List.mem_filter.mpr ⟨listed, by simpa using missing⟩
      obtain ⟨first, member, free⟩ := exists_not_dependsOn _ (List.ne_nil_of_mem left) fun other _ => acyclic other
      simp only [List.mem_filter, decide_eq_true_eq] at member free
      refine finished first ⟨member.1, member.2, fun dependency needed => ?_⟩
      by_contra waiting
      exact free dependency ⟨(mem_elements_of_dependency needed).2, waiting⟩ needed
    have permuted := (List.perm_ext_iff_of_nodup greedy.nodup order.nodup_elements).mpr fun element =>
      ⟨fun member => (greedy.mem element member).1, whole element⟩
    exact permuted.length_eq

theorem topologicalOrder?_eq (order : DependencyOrder α) :
    ∃ emitted, Greedy order.DependsOn order.elements [] emitted ∧
      (∀ element, ¬ Ready order.DependsOn order.elements emitted element) ∧
      order.topologicalOrder? = if emitted.length = order.size then some emitted else none := by
  obtain ⟨emitted, greedy, finished, ended⟩ := order.emissionOrder_ok
  exact ⟨emitted, greedy, finished, by rw [topologicalOrder?, ended]; rfl⟩

theorem emissionOrder_eq_ok (order : DependencyOrder α) : order.emissionOrder = .ok order.topologicalOrder? := by
  obtain ⟨emitted, -, -, ended⟩ := order.emissionOrder_ok
  rw [topologicalOrder?, ended]
  rfl

theorem topologicalOrder?_greedy {emitted : List α} (found : order.topologicalOrder? = some emitted) :
    Greedy order.DependsOn order.elements [] emitted ∧ emitted.Perm order.elements := by
  obtain ⟨others, greedy, -, ended⟩ := order.topologicalOrder?_eq
  rw [ended, Option.ite_none_right_eq_some] at found
  obtain ⟨whole, same⟩ := found
  obtain rfl := Option.some.inj same
  exact ⟨greedy, greedy.perm whole⟩

theorem topologicalOrder?_arranged {emitted : List α} (found : order.topologicalOrder? = some emitted) :
    Arranged order.DependsOn [] emitted ∧ emitted.Perm order.elements :=
  (topologicalOrder?_greedy found).imp_left Greedy.arranged

theorem topologicalOrder?_of_arranged (arranged : Arranged order.DependsOn [] order.elements) :
    order.topologicalOrder? = some order.elements := by
  obtain ⟨emitted, greedy, finished, ended⟩ := order.topologicalOrder?_eq
  obtain rfl := greedy.unique (.of_arranged arranged order.nodup_elements) finished
    fun element ready => ready.waiting ready.listed
  exact ended.trans (if_pos rfl)

/-- Elements that depend on one another have an order unless there is a cycle. -/
theorem topologicalOrder?_eq_none_iff :
    order.topologicalOrder? = none ↔ ∃ element, Relation.TransGen order.DependsOn element element := by
  obtain ⟨emitted, greedy, finished, ended⟩ := order.topologicalOrder?_eq
  rw [ended, ite_eq_right_iff, length_emitted_eq_size_iff greedy finished]
  simp

end QueryOptimizer.DependencyOrder
