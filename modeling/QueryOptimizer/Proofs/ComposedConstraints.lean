import QueryOptimizer.Proofs.Simplification.Ledger
import QueryOptimizer.Proofs.Term

/-!
Conjunctions of many constraints. Which constraints are composed decides what comes of it, and not how: neither
their order, nor the brackets, nor how often one of them occurs, nor constraints that always hold.
-/
namespace QueryOptimizer

/-- A way to compose constraints: two at a time, in brackets. -/
inductive Composition where
  | part (constraint : Constraint)
  | pair (first second : Composition)

namespace Composition

/-- The constraints that are composed, from left to right. -/
def parts : Composition → List Constraint
  | part constraint => [constraint]
  | pair first second => first.parts ++ second.parts

def value : Composition → Constraint
  | part constraint => constraint
  | pair first second => first.value.compose second.value

/-- The given constraints are what is composed, in whatever order and however often each, besides constraints that
always hold. -/
def Composes (composition : Composition) (constraints : List Constraint) : Prop :=
  ∀ constraint, constraint ≠ .none → (constraint ∈ composition.parts ↔ constraint ∈ constraints)

variable {composition one other : Composition} {constraints : List Constraint}

/-- A conjunction has the conditions of all its parts. -/
theorem mem_value {condition : Condition} :
    condition ∈ composition.value.conditions ↔
      ∃ constraint ∈ composition.parts, condition ∈ constraint.conditions := by
  induction composition with
  | part constraint => simp [value, parts]
  | pair first second left right => simp only [value, parts, Constraint.mem_compose, left, right, List.mem_append,
      or_and_right, exists_or]

theorem Composes.mem_value (composes : composition.Composes constraints) {condition : Condition} :
    condition ∈ composition.value.conditions ↔ ∃ constraint ∈ constraints, condition ∈ constraint.conditions := by
  rw [Composition.mem_value]
  refine exists_congr fun constraint => and_congr_left fun present => composes constraint ?_
  rintro rfl
  exact Constraint.not_mem_none present

theorem Composes.value_eq (first : one.Composes constraints) (second : other.Composes constraints) :
    one.value = other.value :=
  Constraint.ext_mem fun _ => first.mem_value.trans second.mem_value.symm

/-- Taking over one constraint after the other is one of the ways. -/
theorem Composes.foldl (composes : composition.Composes constraints) :
    composition.value = constraints.foldl Constraint.compose .none := by
  refine Constraint.ext_mem fun condition => ?_
  rw [composes.mem_value, Constraint.mem_foldl_compose]
  simp only [Constraint.not_mem_none, false_or]

theorem Composes.isConstrained_eq_false_iff (composes : composition.Composes constraints) :
    composition.value.isConstrained = false ↔ ∀ constraint ∈ constraints, constraint.isConstrained = false := by
  simp only [← Bool.not_eq_true, Constraint.isConstrained_iff, composes.mem_value, not_exists, not_and]
  exact ⟨fun none constraint member condition => none condition constraint member,
    fun none condition constraint member => none constraint member condition⟩

end Composition

/-- The conditions of a constraint are listed in their order, each once. -/
theorem Constraint.ordered_conditions (constraint : Constraint) :
    constraint.conditions.toList.Pairwise fun one other => compare one other = .lt :=
  Std.ExtTreeSet.ordered_toList

section Trees
variable {ν ω : Type} [Tree ν ω]

/-- The listed nodes are those of the tree, in whatever order and however often each. -/
def Tree.ListedBy (nodes : List ν) (root : ν) : Prop :=
  ∀ id, id ∈ nodes.map identity ↔ id ∈ (Tree.postOrder root).map identity

variable {constraints : Table ν Constraint} {nodes others : List ν} {condition : Condition}

theorem Table.mem_recorded_iff {node : ν} :
    condition ∈ (constraints.recorded node).conditions ↔
      ∃ constraint, constraints.get? node = some constraint ∧ condition ∈ constraint.conditions := by
  cases found : constraints.get? node with
  | none => simp [recorded, found, Constraint.not_mem_none]
  | some constraint => simp [recorded, found]

/-- What is recorded for nodes is looked up by their identities. -/
theorem Table.exists_mem_recorded_congr (same : ∀ id, id ∈ nodes.map identity → id ∈ others.map identity)
    (recorded : ∃ node ∈ nodes, condition ∈ (constraints.recorded node).conditions) :
    ∃ node ∈ others, condition ∈ (constraints.recorded node).conditions := by
  obtain ⟨node, member, present⟩ := recorded
  obtain ⟨other, listed, named⟩ := List.mem_map.mp (same _ (List.mem_map_of_mem member))
  exact ⟨other, listed, recorded_of_sameNode named ▸ present⟩

/-- Whatever way leads through the nodes of a tree, what is recorded for them composes to one constraint. -/
theorem Composition.Composes.collectConstraints {composition : Composition}
    (composes : composition.Composes (nodes.filterMap constraints.get?)) {root : ν}
    (listed : Tree.ListedBy nodes root) : composition.value = collectConstraints constraints root := by
  refine Constraint.ext_mem fun condition => ?_
  rw [mem_collectConstraints]
  have recorded : condition ∈ composition.value.conditions ↔
      ∃ node ∈ nodes, condition ∈ (constraints.recorded node).conditions := by
    simp only [composes.mem_value, List.mem_filterMap, Table.mem_recorded_iff]
    grind
  rw [recorded]
  exact ⟨Table.exists_mem_recorded_congr fun id => (listed id).mp,
    Table.exists_mem_recorded_congr fun id => (listed id).mpr⟩

end Trees

/-- Composing the constraints of a list, in any order and with any brackets, with any of them repeated and with any
number of constraints that always hold added, gives one constraint, with one sequence of conditions and one text. Its
conditions are those of all the constraints, each once and in the order of conditions, and it always holds if and
only if each of them does. So the constraint collected for a tree depends on nothing but which nodes the tree has, and
neither on the order in which they are visited nor on how often. -/
theorem constraints_compose_in_any_way {ν ω : Type} [Tree ν ω] :
    (∀ (constraints : List Constraint) (composition : Composition), composition.Composes constraints →
      composition.value = constraints.foldl Constraint.compose .none ∧
      (∀ other : Composition, other.Composes constraints → other.value = composition.value ∧
        other.value.conditions.toList = composition.value.conditions.toList ∧
          other.value.text = composition.value.text) ∧
      composition.value.conditions.toList.Pairwise (fun one other => compare one other = .lt) ∧
      (∀ condition, condition ∈ composition.value.conditions.toList ↔
        ∃ constraint ∈ constraints, condition ∈ constraint.conditions.toList) ∧
      (composition.value.isConstrained = false ↔
        ∀ constraint ∈ constraints, constraint.isConstrained = false)) ∧
    ∀ (constraints : Table ν Constraint) (root : ν) (nodes : List ν) (composition : Composition),
      Tree.ListedBy nodes root → composition.Composes (nodes.filterMap constraints.get?) →
        composition.value = collectConstraints constraints root := by
  refine ⟨fun constraints composition composes => ⟨composes.foldl, fun other also => ?_,
    composition.value.ordered_conditions, fun condition => ?_, composes.isConstrained_eq_false_iff⟩, ?_⟩
  · have same := also.value_eq composes
    exact ⟨same, congrArg (·.conditions.toList) same, congrArg Constraint.text same⟩
  · simp only [Std.ExtTreeSet.mem_toList]
    exact composes.mem_value
  · exact fun constraints root nodes composition listed composes => composes.collectConstraints listed

/-- Two conditions, one of them taken twice and with a constraint that always holds in between, and a tree with a
shared leaf, for whose nodes they are recorded. -/
theorem constraints_compose_in_any_way_shared_leaf :
    let unbound : Constraint := .of (.isNotNull ⟨"p"⟩)
    let five : Constraint := .of (.equals ⟨"p"⟩ (.int 5))
    let composition : Composition := .pair (.pair (.part five) (.part .none)) (.pair (.part unbound) (.part five))
    let leaf : Term := .leaf ⟨0⟩ 1
    let root : Term := .apply ⟨1⟩ "f" [leaf, leaf]
    let constraints : Table Term Constraint := (Table.empty.insert leaf unbound).insert root five
    composition.Composes [unbound, five] ∧ composition.value = unbound.compose five ∧
      composition.value.text = "p IS NOT NULL AND p = 5" ∧
      Tree.ListedBy [root, leaf] root ∧ composition.value = collectConstraints constraints root := by
  intro unbound five composition leaf root constraints
  have composes (listing : List Constraint) (both : ∀ constraint, constraint ∈ listing ↔
      constraint = unbound ∨ constraint = five) : composition.Composes listing := by
    intro constraint constrained
    simp only [composition, Composition.parts, both, List.mem_append, List.mem_singleton, constrained, or_false]
    tauto
  have first : composition.Composes [unbound, five] := composes _ fun constraint => by simp
  have second : composition.Composes ([root, leaf].filterMap constraints.get?) := by
    have recorded : [root, leaf].filterMap constraints.get? = [five, unbound] := by decide
    exact composes _ fun constraint => by simp [recorded, or_comm]
  have listed : Tree.ListedBy [root, leaf] root := by
    intro id
    simp [Tree.postOrder_eq, root, leaf, Tree.children, Term.arguments, or_comm]
  obtain ⟨lists, trees⟩ := constraints_compose_in_any_way (ν := Term)
  refine ⟨first, (lists _ _ first).1, by decide, listed, trees constraints root _ composition listed second⟩

end QueryOptimizer
