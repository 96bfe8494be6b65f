import QueryOptimizer.Proofs.Predicate.Termination
import QueryOptimizer.Proofs.Tree.Descent

/-!
The normal form of predicates: negations only over null tests, and connectives of at least two operands
with nothing to flatten or absorb. A node over normal operands either is in the form or has a rule that
replaces it, and no replacement makes it higher.
-/
namespace QueryOptimizer.Predicate

mutual

/-- How many predicates there are on the longest path from the root down. -/
def height : Predicate → Nat
  | constant _ _ => 1
  | and _ operands => 1 + heightEach operands
  | or _ operands => 1 + heightEach operands
  | not _ operand => 1 + height operand
  | compare _ _ _ _ => 1
  | isNull _ _ => 1

def heightEach : List Predicate → Nat
  | [] => 0
  | predicate :: rest => max (height predicate) (heightEach rest)

end

theorem height_eq (predicate : Predicate) : predicate.height = 1 + heightEach predicate.children := by
  cases predicate <;> simp [height, heightEach, children]

theorem height_pos (predicate : Predicate) : 0 < predicate.height := by
  rw [height_eq]
  omega

@[simp] theorem height_connective (kind : PredicateKind) (id : NodeId) (operands : List Predicate) :
    (connective kind id operands).height = 1 + heightEach operands := by
  rw [height_eq, children_connective]

theorem heightEach_le_iff {predicates : List Predicate} {bound : Nat} :
    heightEach predicates ≤ bound ↔ ∀ predicate ∈ predicates, predicate.height ≤ bound := by
  induction predicates with
  | nil => simp [heightEach]
  | cons predicate rest ih => simp [heightEach, ih]

theorem height_le_heightEach {predicate : Predicate} {predicates : List Predicate}
    (member : predicate ∈ predicates) : predicate.height ≤ heightEach predicates :=
  heightEach_le_iff.mp (Nat.le_refl _) predicate member

/-- An operand that a connective of the given kind keeps: not one to flatten, drop or decide by. -/
def Keepable (kind : PredicateKind) (operand : Predicate) : Prop :=
  operand.kind ≠ kind ∧ operand.asConstant? ≠ some .holds ∧ operand.asConstant? ≠ some .fails

/-- What the normal form asks of a single node. -/
def NormalNode : Predicate → Prop
  | not _ operand => operand.kind = .isNull
  | and _ operands => 2 ≤ operands.length ∧ ∀ operand ∈ operands, Keepable .and operand
  | or _ operands => 2 ≤ operands.length ∧ ∀ operand ∈ operands, Keepable .or operand
  | _ => True

/-- Every node of the predicate is as the normal form asks. -/
def Normal (predicate : Predicate) : Prop :=
  ∀ node ∈ Tree.postOrder predicate, NormalNode node

/-- Every operand of the node is normal. -/
def Ready (predicate : Predicate) : Prop :=
  ∀ child ∈ predicate.children, Normal child

theorem normal_iff {predicate : Predicate} : Normal predicate ↔ NormalNode predicate ∧ Ready predicate :=
  throughout_iff

theorem Normal.ready {predicate : Predicate} (normal : Normal predicate) : Ready predicate :=
  (normal_iff.mp normal).2

theorem ready_of_leaf {predicate : Predicate} (single : predicate.children = []) : Ready predicate :=
  throughoutBelow_of_leaf single

/-- The normal form holds of connectives alike. -/
theorem normalNode_connective {kind : PredicateKind} (combines : IsConnectiveKind kind) {id : NodeId}
    {operands : List Predicate} : NormalNode (connective kind id operands) ↔
      2 ≤ operands.length ∧ ∀ operand ∈ operands, Keepable kind operand := by
  rcases combines with rfl | rfl <;> rfl

section Step
variable {environment : Environment} {constraints : Table Predicate Constraint} {supply later : Supply}
variable {current node : Predicate} {constraint : Constraint}

/-- The operands of flattened operands are as normal, and no higher. -/
theorem of_mem_flattened {kind : PredicateKind} {operands : List Predicate} {child : Predicate}
    (member : child ∈ flattened kind operands) :
    child ∈ operands ∨ ∃ operand ∈ operands, child ∈ operand.children := by
  obtain ⟨operand, present, within⟩ := List.mem_flatMap.mp member
  split at within
  · exact .inr ⟨operand, present, within⟩
  · exact .inl (List.mem_singleton.mp within ▸ present)

theorem kind_connective_ne_not (kind : PredicateKind) (id : NodeId) (operands : List Predicate) :
    (connective kind id operands).kind ≠ .not := by
  cases kind <;> exact nofun

theorem ready_connective {kind : PredicateKind} {id : NodeId} {operands : List Predicate} :
    Ready (connective kind id operands) ↔ ∀ operand ∈ operands, Normal operand := by
  rw [Ready, children_connective]

/-- Replacing a node over normal operands gives a node over normal operands, and never a negation that
is not itself normal. -/
theorem Step.ready (step : Step environment constraints supply current node constraint later)
    (ready : Ready current) : Ready node ∧ (node.kind = .not → Normal node) := by
  have leaf (single : node.children = []) (other : node.kind ≠ .not) :
      Ready node ∧ (node.kind = .not → Normal node) :=
    ⟨ready_of_leaf single, fun same => False.elim (other same)⟩
  have normal (known : Normal node) : Ready node ∧ (node.kind = .not → Normal node) :=
    ⟨known.ready, fun _ => known⟩
  cases step with
  | parameterDecided | comparisonSimplified | nullTestSimplified | comparisonFolded | nullTestFolded
  | constantNegated | comparisonNegated | absorbed | emptied => exact leaf rfl nofun
  | doublyNegated =>
    have inner := ready _ (List.mem_singleton_self _)
    exact normal (inner.ready _ (List.mem_singleton_self _))
  | flattened combines =>
    have operands := ready_connective.mp ready
    refine ⟨ready_connective.mpr ?_, fun same => False.elim (kind_connective_ne_not _ _ _ same)⟩
    intro child member
    rcases of_mem_flattened member with direct | ⟨operand, present, below⟩
    · exact operands child direct
    · exact (operands operand present).ready child below
  | collapsed _ single =>
    exact normal (ready_connective.mp ready _ (List.mem_of_mem_filter (single ▸ List.mem_singleton_self _)))
  | reduced =>
    have operands := ready_connective.mp ready
    refine ⟨ready_connective.mpr ?_, fun same => False.elim (kind_connective_ne_not _ _ _ same)⟩
    intro child member
    exact operands child (List.mem_of_mem_filter member)

/-- No replacement is higher than what it replaces. -/
theorem Step.height_le (step : Step environment constraints supply current node constraint later) :
    node.height ≤ current.height := by
  cases step with
  | parameterDecided | comparisonSimplified | nullTestSimplified | comparisonFolded | nullTestFolded
  | constantNegated | comparisonNegated | absorbed | emptied => exact height_pos _
  | doublyNegated =>
    simp only [height]
    omega
  | flattened =>
    rw [height_connective, height_connective]
    refine Nat.add_le_add_left (heightEach_le_iff.mpr ?_) 1
    intro child member
    rcases of_mem_flattened member with direct | ⟨operand, present, below⟩
    · exact height_le_heightEach direct
    · have upper := height_le_heightEach present
      have lower := height_le_heightEach below
      rw [height_eq operand] at upper
      omega
  | collapsed _ single =>
    have part := height_le_heightEach (List.mem_of_mem_filter (single ▸ List.mem_singleton_self _))
    rw [height_connective]
    omega
  | reduced =>
    rw [height_connective, height_connective]
    refine Nat.add_le_add_left (heightEach_le_iff.mpr ?_) 1
    intro child member
    exact height_le_heightEach (List.mem_of_mem_filter member)

/-- A replacement is another node. -/
theorem Step.different (step : Step environment constraints supply current node constraint later)
    {nodes : Set Predicate} (arena : Arena nodes supply) (present : current ∈ nodes) :
    ¬ sameNode node current = true := by
  intro same
  have joined := step.joins arena present
  have equal := joined.distinct node (Set.mem_insert _ _) current (Set.mem_insert_of_mem _ present)
    (sameNode_iff.mp same)
  have lower := step.lighter
  rw [equal] at lower
  exact Nat.lt_irrefl _ lower

theorem height_negations (allocated : Nat) (operands : List Predicate) :
    heightEach (negations allocated operands) ≤ 1 + heightEach operands := by
  induction operands generalizing allocated with
  | nil => exact Nat.zero_le _
  | cons operand rest ih =>
    have others := ih (allocated + 1)
    simp only [negations, heightEach, height]
    omega

/-- Pushing a negation down gives a connective that is no higher. -/
theorem PushesDown.height_le (pushes : PushesDown constraints supply current node constraint later) :
    IsConnectiveKind node.kind ∧ node.height ≤ current.height := by
  cases pushes with
  | @intro _ _ _ operands kind _ isDual =>
    constructor
    · cases kind <;> cases isDual
      · exact .inr rfl
      · exact .inl rfl
    · have negated := height_negations supply.allocated operands
      rw [height_connective, height, height_connective]
      omega

/-- Only a negation that is not normal is pushed down. -/
theorem PushesDown.not_normal (pushes : PushesDown constraints supply current node constraint later) :
    current.kind = .not ∧ ¬ Normal current := by
  cases pushes with
  | @intro _ _ _ _ kind =>
    refine ⟨rfl, ?_⟩
    intro normal
    have overTest := (normal_iff.mp normal).1
    cases kind <;> cases overTest

theorem PushesDown.different (pushes : PushesDown constraints supply current node constraint later)
    {nodes : Set Predicate} (arena : Arena nodes supply) (present : current ∈ nodes) :
    ¬ sameNode node current = true := by
  intro same
  have bound := arena.allocated current present
  rw [← sameNode_iff.mp same] at bound
  cases pushes with
  | intro =>
    rw [show QueryOptimizer.identity (connective _ _ _) = _ from identity_connective _ _ _] at bound
    exact Nat.not_lt_of_le (Nat.le_add_right _ _) bound

end Step
end QueryOptimizer.Predicate
