import Std.Data.ExtTreeMap
import Std.Data.ExtTreeSet

/-!
Elements that depend on one another, and the order in which every element comes after all that it
depends on. The order is found by counting, for each element, the dependencies that are not emitted
yet; an element whose count has come down to zero is ready to be emitted.
-/
namespace QueryOptimizer

/-- Distinct elements in the order they were added, and the direct dependencies of each. -/
structure DependencyOrder (α : Type) [Ord α] [Std.TransOrd α] where
  elements : List α
  /-- Where each element is among `elements`. -/
  positions : Std.ExtTreeMap α Nat
  dependencies : Std.ExtTreeMap α (Std.ExtTreeSet α)
  placed : ∀ (element : α) (position : Nat),
    positions[element]? = some position ↔ elements[position]? = some element
  related : ∀ (element : α) (needed : Std.ExtTreeSet α), dependencies[element]? = some needed →
    element ∈ elements ∧ ∀ dependency ∈ needed, dependency ∈ elements

namespace DependencyOrder
variable {α : Type}

theorem getElem?_concat_eq_some_iff {elements : List α} {last other : α} {position : Nat} :
    (elements ++ [last])[position]? = some other ↔
      elements[position]? = some other ∨ position = elements.length ∧ last = other := by
  rw [List.getElem?_append, List.getElem?_singleton]
  split
  · rename_i before
    simp [Nat.ne_of_lt before]
  · rename_i beyond
    have outside : elements[position]? = none := List.getElem?_eq_none (Nat.le_of_not_lt beyond)
    have first : position - elements.length = 0 ↔ position = elements.length := by omega
    rw [outside]
    simp [first]

variable [Ord α] [Std.TransOrd α]

def empty : DependencyOrder α where
  elements := []
  positions := ∅
  dependencies := ∅
  placed := by simp
  related := by simp

def contains (order : DependencyOrder α) (element : α) : Bool :=
  order.positions.contains element

theorem contains_iff_mem {order : DependencyOrder α} {element : α} :
    order.contains element = true ↔ element ∈ order.elements := by
  rw [contains, Std.ExtTreeMap.contains_eq_isSome_getElem?, Option.isSome_iff_exists, List.mem_iff_getElem?]
  simp only [order.placed]

/-- The elements that `element` directly depends on. -/
def dependenciesOf (order : DependencyOrder α) (element : α) : Std.ExtTreeSet α :=
  order.dependencies[element]?.getD ∅

theorem mem_elements_of_dependency {order : DependencyOrder α} {element dependency : α}
    (depends : dependency ∈ order.dependenciesOf element) :
    element ∈ order.elements ∧ dependency ∈ order.elements := by
  unfold dependenciesOf at depends
  cases found : order.dependencies[element]? with
  | none => simp [found] at depends
  | some needed =>
    obtain ⟨known, among⟩ := order.related element needed found
    exact ⟨known, among dependency (by simpa [found] using depends)⟩

section Adding
variable [Std.LawfulEqOrd α]

/-- A new element takes the position after all others. -/
theorem placed_concat {elements : List α} {positions : Std.ExtTreeMap α Nat} {element : α}
    (placed : ∀ (other : α) (position : Nat),
      positions[other]? = some position ↔ elements[position]? = some other)
    (absent : element ∉ elements) (other : α) (position : Nat) :
    (positions.insert element elements.length)[other]? = some position ↔
      (elements ++ [element])[position]? = some other := by
  rw [Std.ExtTreeMap.getElem?_insert, getElem?_concat_eq_some_iff]
  split
  · rename_i equal
    obtain rfl := Std.compare_eq_iff_eq.mp equal
    have unlisted : elements[position]? ≠ some element := fun found => absent (List.mem_of_getElem? found)
    simp [unlisted, eq_comm]
  · rename_i distinct
    have different : element ≠ other := fun same => distinct (Std.compare_eq_iff_eq.mpr same)
    simp [placed, different]

/-- Adds `element` at the end, unless it is already present. -/
def addElement (order : DependencyOrder α) (element : α) : DependencyOrder α :=
  if present : order.contains element then order
  else
    { order with
      elements := order.elements ++ [element]
      positions := order.positions.insert element order.elements.length
      placed := placed_concat order.placed fun member => present (contains_iff_mem.mpr member)
      related := fun other needed found =>
        ⟨List.mem_append_left _ (order.related other needed found).1, fun dependency member =>
          List.mem_append_left _ ((order.related other needed found).2 dependency member)⟩ }

theorem mem_addElement {order : DependencyOrder α} {element other : α} :
    other ∈ (order.addElement element).elements ↔ other ∈ order.elements ∨ other = element := by
  unfold addElement
  split
  · rename_i present
    constructor
    · exact .inl
    · rintro (old | rfl)
      · exact old
      · exact contains_iff_mem.mp present
  · simp

/-- Makes `element` depend on `dependency`, adding both if needed. -/
def addDependency (order : DependencyOrder α) (element dependency : α) : DependencyOrder α :=
  let extended := (order.addElement element).addElement dependency
  { extended with
    dependencies := extended.dependencies.insert element
      ((extended.dependenciesOf element).insert dependency)
    related := by
      intro other needed found
      rw [Std.ExtTreeMap.getElem?_insert] at found
      split at found
      · rename_i same
        obtain rfl := Option.some.inj found
        obtain rfl := Std.compare_eq_iff_eq.mp same
        refine ⟨mem_addElement.mpr (.inl (mem_addElement.mpr (.inr rfl))), ?_⟩
        intro blocker member
        rcases Std.ExtTreeSet.mem_insert.mp member with new | old
        · exact mem_addElement.mpr (.inr (Std.compare_eq_iff_eq.mp new).symm)
        · exact (mem_elements_of_dependency old).2
      · exact extended.related other needed found }

end Adding

def size (order : DependencyOrder α) : Nat :=
  order.elements.length

def isEmpty (order : DependencyOrder α) : Bool :=
  order.elements.isEmpty

/-- What the bookkeeping of an ordering can run into. -/
inductive Fault where
  /-- An element is looked up that was not added. -/
  | unknownElement
  /-- A position is looked up that no element has. -/
  | unknownPosition
  /-- More dependencies of an element are emitted than it has. -/
  | countUnderflow
  deriving DecidableEq, Repr

/-- The elements that are still to be emitted, by their positions. -/
structure Schedule where
  /-- At each position, how many dependencies are not emitted yet. -/
  pending : List Nat
  /-- The positions that depend on each position. -/
  dependants : Std.ExtTreeMap Nat (List Nat) := ∅
  /-- The positions that nothing is pending at. -/
  ready : Std.ExtTreeSet Nat := ∅

namespace Schedule

def pendingAt (schedule : Schedule) (position : Nat) : Except Fault Nat :=
  match schedule.pending[position]? with
  | some count => .ok count
  | none => .error .unknownPosition

def dependantsOf (schedule : Schedule) (position : Nat) : List Nat :=
  schedule.dependants[position]?.getD []

/-- Makes a position wait for another one. -/
def link (schedule : Schedule) (position dependency : Nat) : Except Fault Schedule := do
  let count ← schedule.pendingAt position
  return { schedule with
    pending := schedule.pending.set position (count + 1)
    dependants := schedule.dependants.insert dependency
      (schedule.dependantsOf dependency ++ [position]) }

/-- Makes ready all positions at which nothing is pending. -/
def start (schedule : Schedule) : Schedule :=
  { schedule with
    ready := .ofList ((schedule.pending.zipIdx.filter fun entry => entry.1 = 0).map Prod.snd) }

/-- Counts one dependency less at a position, which is ready if that was the last one. -/
def release (schedule : Schedule) (position : Nat) : Except Fault Schedule := do
  match ← schedule.pendingAt position with
  | 0 => throw .countUnderflow
  | count + 1 =>
    return { schedule with
      pending := schedule.pending.set position count
      ready := if count = 0 then schedule.ready.insert position else schedule.ready }

/-- How many dependencies are pending anywhere. -/
def total (counts : List Nat) : Nat :=
  counts.foldr (fun count rest => count + rest) 0

/-- How many steps are left at most. -/
def effort (schedule : Schedule) : Nat :=
  schedule.ready.size + total schedule.pending

theorem total_set_succ {counts : List Nat} {position count : Nat}
    (found : counts[position]? = some (count + 1)) :
    total (counts.set position count) + 1 = total counts := by
  induction counts generalizing position with
  | nil => simp at found
  | cons first rest ih =>
    cases position with
    | zero =>
      obtain rfl := Option.some.inj found
      simp only [total, List.set_cons_zero, List.foldr_cons]
      omega
    | succ position =>
      have lower := ih found
      simp only [total, List.set_cons_succ, List.foldr_cons] at lower ⊢
      omega

theorem effort_release {schedule next : Schedule} {position : Nat}
    (released : schedule.release position = .ok next) : next.effort ≤ schedule.effort := by
  unfold release pendingAt at released
  cases found : schedule.pending[position]? with
  | none => simp [found, bind, Except.bind] at released
  | some count =>
    cases count with
    | zero => simp [found, bind, Except.bind] at released
    | succ count =>
      have lower := total_set_succ found
      simp only [found, bind, Except.bind, pure, Except.pure, Except.ok.injEq] at released
      subst released
      have size : (if count = 0 then schedule.ready.insert position else schedule.ready).size ≤
          schedule.ready.size + 1 := by
        split
        · exact Std.ExtTreeSet.size_insert_le
        · exact Nat.le_succ _
      simp only [effort]
      omega

theorem effort_foldlM_release {positions : List Nat} {schedule next : Schedule}
    (released : positions.foldlM release schedule = .ok next) : next.effort ≤ schedule.effort := by
  induction positions generalizing schedule with
  | nil =>
    obtain rfl := Except.ok.inj released
    exact Nat.le_refl _
  | cons position rest ih =>
    rw [List.foldlM_cons] at released
    cases first : schedule.release position with
    | error fault => simp [first, bind, Except.bind] at released
    | ok between =>
      simp only [first, bind, Except.bind] at released
      exact Nat.le_trans (ih released) (effort_release first)

/-- Takes a position out of those that are ready. -/
def take (schedule : Schedule) (position : Nat) : Schedule :=
  { schedule with ready := schedule.ready.erase position }

theorem effort_take {schedule : Schedule} {position : Nat} (ready : position ∈ schedule.ready) :
    (schedule.take position).effort < schedule.effort := by
  have present : schedule.ready.contains position = true := Std.ExtTreeSet.mem_iff_contains.mp ready
  have positive : schedule.ready.size ≠ 0 := by
    rw [ne_eq, ← Std.ExtTreeSet.eq_empty_iff_size_eq_zero]
    rintro empty
    simp [empty] at ready
  simp only [effort, take, Std.ExtTreeSet.size_erase, present, if_true]
  omega

/-- The first ready position, if there is one, and what is left once it is emitted. -/
def advance? (schedule : Schedule) : Option (Nat × Except Fault Schedule) :=
  schedule.ready.min?.map fun position =>
    (position, (schedule.dependantsOf position).foldlM release (schedule.take position))

theorem effort_advance? {schedule next : Schedule} {position : Nat}
    (advanced : schedule.advance? = some (position, .ok next)) : next.effort < schedule.effort := by
  obtain ⟨_, first, same⟩ := Option.map_eq_some_iff.mp advanced
  obtain ⟨rfl, released⟩ := Prod.mk.inj same
  exact Nat.lt_of_le_of_lt (effort_foldlM_release released) (effort_take (Std.ExtTreeSet.min?_mem first))

/-- What comes next, with the reason why that cannot go on forever. -/
def advance (schedule : Schedule) : { advanced : Option (Nat × Except Fault Schedule) //
    ∀ position next, advanced = some (position, .ok next) → next.effort < schedule.effort } :=
  ⟨schedule.advance?, fun _ _ => effort_advance?⟩

end Schedule

/-- The pairs of an element and one of its dependencies. -/
def links (order : DependencyOrder α) : List (α × α) :=
  order.dependencies.toList.flatMap fun entry => entry.2.toList.map fun dependency => (entry.1, dependency)

def positionOf (order : DependencyOrder α) (element : α) : Except Fault Nat :=
  match order.positions[element]? with
  | some position => .ok position
  | none => .error .unknownElement

/-- Makes an element wait for one of its dependencies. -/
def addLink (order : DependencyOrder α) (schedule : Schedule) (link : α × α) : Except Fault Schedule := do
  schedule.link (← order.positionOf link.1) (← order.positionOf link.2)

/-- The schedule before anything is emitted. -/
def schedule (order : DependencyOrder α) : Except Fault Schedule := do
  let linked ← order.links.foldlM order.addLink { pending := List.replicate order.size 0 }
  return linked.start

/-- Emits the first ready element until none is ready. -/
def emitReady (order : DependencyOrder α) (schedule : Schedule) : Except Fault (List α) :=
  match schedule.advance with
  | ⟨none, _⟩ => .ok []
  | ⟨some (position, released), lower⟩ =>
    match order.elements[position]? with
    | none => .error .unknownPosition
    | some element =>
      match released, lower with
      | .error fault, _ => .error fault
      | .ok next, _lower => (order.emitReady next).map (element :: ·)
termination_by schedule.effort
decreasing_by exact _lower position next rfl

/-- All elements, each after its dependencies and as early as the order of addition allows, or
nothing if some elements wait for each other and are never ready. -/
def emissionOrder (order : DependencyOrder α) : Except Fault (Option (List α)) := do
  let emitted ← order.emitReady (← order.schedule)
  return if emitted.length = order.size then some emitted else none

/-- The order in which the elements are emitted, if all of them are. -/
def topologicalOrder? (order : DependencyOrder α) : Option (List α) :=
  order.emissionOrder.toOption.join

end DependencyOrder
end QueryOptimizer
