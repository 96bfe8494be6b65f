import QueryOptimizer.Proofs.DependencyOrder

/-!
Elements and dependencies that are added in any order and any number of times. What is emitted can be told
from the additions alone: nothing as a whole if they close a cycle, and otherwise everything that they name,
each element as soon as its dependencies and the elements named earlier allow.
-/
namespace QueryOptimizer

/-- One step of adding to the elements that depend on one another. -/
inductive Addition (α : Type) where
  | single (element : α)
  | dependent (element dependency : α)
  deriving DecidableEq, Repr

namespace Addition
variable {α : Type}

/-- The elements that are added unless they are present, in this order. -/
def named : Addition α → List α
  | .single element => [element]
  | .dependent element dependency => [element, dependency]

/-- One of the additions makes `element` depend on `dependency`. -/
abbrev Relates (additions : List (Addition α)) (element dependency : α) : Prop :=
  .dependent element dependency ∈ additions

variable [Ord α] [Std.TransOrd α] [Std.LawfulEqOrd α]

def addTo (order : DependencyOrder α) : Addition α → DependencyOrder α
  | .single element => order.addElement element
  | .dependent element dependency => order.addDependency element dependency

end Addition

namespace DependencyOrder
open Addition

section Additions
variable {α : Type} [Ord α] [Std.TransOrd α] [Std.LawfulEqOrd α]

def ofAdditions (additions : List (Addition α)) : DependencyOrder α :=
  additions.foldl addTo empty

theorem ofAdditions_concat (additions : List (Addition α)) (addition : Addition α) :
    ofAdditions (additions ++ [addition]) = addition.addTo (ofAdditions additions) :=
  List.foldl_concat ..

theorem dependsOn_addTo {order : DependencyOrder α} {addition : Addition α} {element dependency : α} :
    (addition.addTo order).DependsOn element dependency ↔
      order.DependsOn element dependency ∨ .dependent element dependency = addition := by
  cases addition with
  | single added => simp [addTo, DependsOn]
  | dependent one other =>
    simp only [addTo, DependsOn, mem_dependenciesOf_addDependency, Addition.dependent.injEq]
    rw [eq_comm (a := element)]

theorem dependsOn_ofAdditions {additions : List (Addition α)} {element dependency : α} :
    (ofAdditions additions).DependsOn element dependency ↔ Relates additions element dependency := by
  induction additions using List.reverseRecOn with
  | nil => simp [ofAdditions, empty, DependsOn, dependenciesOf]
  | append_singleton additions addition ih =>
    rw [ofAdditions_concat, dependsOn_addTo, ih]
    simp only [Relates, List.mem_append, List.mem_singleton]

end Additions

section Mentioned
variable {α : Type} [DecidableEq α]

/-- The elements are those that are mentioned, in the order in which each is mentioned first. -/
structure Lists (elements mentioned : List α) : Prop where
  mem : ∀ element, element ∈ elements ↔ element ∈ mentioned
  first : ∀ element ∈ elements, ∀ other ∈ elements,
    elements.idxOf element ≤ elements.idxOf other ↔ mentioned.idxOf element ≤ mentioned.idxOf other

theorem idxOf_concat_self {elements : List α} {element : α} (absent : element ∉ elements) :
    (elements ++ [element]).idxOf element = elements.length := by
  simp [List.idxOf_append_of_notMem absent]

namespace Lists
variable {elements mentioned : List α}

/-- What is mentioned again stays where it is. -/
theorem again {element : α} (lists : Lists elements mentioned) (present : element ∈ elements) :
    Lists elements (mentioned ++ [element]) := by
  refine ⟨fun other => ?_, fun one member other memberToo => ?_⟩
  · rw [List.mem_append, List.mem_singleton, ← lists.mem]
    exact (or_iff_left_of_imp fun same => same ▸ present).symm
  · rw [List.idxOf_append_of_mem ((lists.mem one).mp member),
      List.idxOf_append_of_mem ((lists.mem other).mp memberToo)]
    exact lists.first one member other memberToo

/-- What is mentioned for the first time comes last. -/
theorem concat {element : α} (lists : Lists elements mentioned) (absent : element ∉ elements) :
    Lists (elements ++ [element]) (mentioned ++ [element]) := by
  have missing : element ∉ mentioned := fun member => absent ((lists.mem element).mpr member)
  refine ⟨fun other => by simp only [List.mem_append, lists.mem], fun one member other memberToo => ?_⟩
  have lower : ∀ old ∈ elements, elements.idxOf old < elements.length ∧ mentioned.idxOf old < mentioned.length :=
    fun old member => ⟨List.idxOf_lt_length_of_mem member, List.idxOf_lt_length_of_mem ((lists.mem old).mp member)⟩
  have kept : ∀ old ∈ elements, (elements ++ [element]).idxOf old = elements.idxOf old ∧
      (mentioned ++ [element]).idxOf old = mentioned.idxOf old :=
    fun old member => ⟨List.idxOf_append_of_mem member, List.idxOf_append_of_mem ((lists.mem old).mp member)⟩
  have last := idxOf_concat_self absent
  have lastToo := idxOf_concat_self missing
  rw [List.mem_append, List.mem_singleton] at member memberToo
  rcases member with old | rfl <;> rcases memberToo with oldToo | rfl
  · rw [(kept one old).1, (kept one old).2, (kept other oldToo).1, (kept other oldToo).2]
    exact lists.first one old other oldToo
  · have bounds := lower one old
    rw [(kept one old).1, (kept one old).2, last, lastToo]
    omega
  · have bounds := lower other oldToo
    rw [(kept other oldToo).1, (kept other oldToo).2, last, lastToo]
    omega
  · simp

end Lists

theorem Greedy.mono {dependsOn same : α → α → Prop} {elements mentioned before emitted : List α}
    (greedy : Greedy dependsOn elements before emitted) (lists : Lists elements mentioned)
    (equal : ∀ element dependency, dependsOn element dependency ↔ same element dependency) :
    Greedy same mentioned before emitted := by
  obtain rfl : dependsOn = same := funext fun element => funext fun dependency => propext (equal element dependency)
  have ready : ∀ {before element}, Ready dependsOn mentioned before element ↔ Ready dependsOn elements before element :=
    ⟨fun ready => ⟨(lists.mem _).mpr ready.listed, ready.waiting, ready.free⟩,
      fun ready => ⟨(lists.mem _).mp ready.listed, ready.waiting, ready.free⟩⟩
  induction greedy with
  | nil => exact .nil
  | cons first least _ ih =>
    refine .cons (ready.mpr first) (fun other readyOther => ?_) ih
    have listed := (ready.mp readyOther).listed
    exact (lists.first _ first.listed other listed).mp (least other (ready.mp readyOther))

end Mentioned

variable {α : Type} [DecidableEq α] [Ord α] [Std.TransOrd α] [Std.LawfulEqOrd α]

namespace Lists
variable {mentioned : List α}

theorem addElement {order : DependencyOrder α} (lists : Lists order.elements mentioned) (element : α) :
    Lists (order.addElement element).elements (mentioned ++ [element]) := by
  by_cases present : element ∈ order.elements
  · rw [order.addElement_of_mem present]
    exact lists.again present
  · rw [order.addElement_of_not_mem present]
    exact lists.concat present

theorem addTo {order : DependencyOrder α} (lists : Lists order.elements mentioned) (addition : Addition α) :
    Lists (addition.addTo order).elements (mentioned ++ addition.named) := by
  cases addition with
  | single element => exact lists.addElement element
  | dependent element dependency =>
    have both := (lists.addElement element).addElement dependency
    rwa [List.append_assoc] at both

theorem ofAdditions (additions : List (Addition α)) :
    Lists (ofAdditions additions).elements (additions.flatMap named) := by
  induction additions using List.reverseRecOn with
  | nil => exact ⟨fun _ => .rfl, fun _ member => nomatch member⟩
  | append_singleton additions addition ih =>
    rw [ofAdditions_concat, List.flatMap_append, List.flatMap_singleton]
    exact ih.addTo addition

end Lists

/-- The order never fails to be found. There is none if an element depends on itself, however indirectly;
otherwise it lists everything that is named, each element once and after its dependencies, and the next one
is always the first named of those whose dependencies are all listed. -/
theorem emissionOrder_ofAdditions (additions : List (Addition α)) :
    ∃ outcome, (ofAdditions additions).emissionOrder = .ok outcome ∧
      (ofAdditions additions).topologicalOrder? = outcome ∧
      (outcome = none ↔ ∃ element, Relation.TransGen (Relates additions) element element) ∧
      ∀ emitted, outcome = some emitted →
        emitted.Nodup ∧ (∀ element, element ∈ emitted ↔ element ∈ additions.flatMap named) ∧
        Arranged (Relates additions) [] emitted ∧
        Greedy (Relates additions) (additions.flatMap named) [] emitted := by
  have lists := Lists.ofAdditions additions
  have relates : (ofAdditions additions).DependsOn = Relates additions :=
    funext fun element => funext fun dependency => propext dependsOn_ofAdditions
  refine ⟨_, emissionOrder_eq_ok _, rfl, ?_, fun emitted found => ?_⟩
  · rw [topologicalOrder?_eq_none_iff, relates]
  · obtain ⟨greedy, permuted⟩ := topologicalOrder?_greedy found
    have fromAdditions := greedy.mono lists fun _ _ => dependsOn_ofAdditions
    refine ⟨greedy.nodup, fun element => ?_, fromAdditions.arranged, fromAdditions⟩
    rw [permuted.mem_iff, lists.mem]

/-- An element that waits for nothing comes before one that waits for it, and otherwise the element added first
comes first. -/
theorem emissionOrder_of_chain :
    let additions : List (Addition Nat) := [.dependent 2 1, .dependent 3 2, .single 0, .dependent 2 1]
    (ofAdditions additions).emissionOrder = .ok (some [1, 2, 3, 0]) ∧
      (∀ element, element ∈ [1, 2, 3, 0] ↔ element ∈ [2, 1, 3, 2, 0, 2, 1]) ∧
      Greedy (Relates additions) [2, 1, 3, 2, 0, 2, 1] [] [1, 2, 3, 0] := by
  intro additions
  have emitted : (ofAdditions additions).emissionOrder = .ok (some [1, 2, 3, 0]) := by cbv
  obtain ⟨outcome, ended, -, -, lists⟩ := emissionOrder_ofAdditions additions
  obtain rfl := Except.ok.inj (emitted.symm.trans ended)
  obtain ⟨-, whole, -, greedy⟩ := lists _ rfl
  exact ⟨emitted, whole, greedy⟩

end DependencyOrder
end QueryOptimizer
