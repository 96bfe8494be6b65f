import QueryOptimizer.Proofs.Predicate.Step
import QueryOptimizer.Proofs.Scalar.Form

/-!
Predicates without identities. What the rules look at in a predicate, and what they make of it, is the same without
identities, and so the rules cannot tell apart predicates that are structurally equal.
-/
namespace QueryOptimizer.Predicate

theorem bareEach_eq_map (predicates : List Predicate) : bareEach predicates = predicates.map bare := by
  induction predicates with
  | nil => rfl
  | cons predicate rest ih => rw [bareEach, ih, List.map_cons]

@[simp] theorem kind_bare (predicate : Predicate) : predicate.bare.kind = predicate.kind := by
  cases predicate <;> rfl

@[simp] theorem children_bare (predicate : Predicate) : predicate.bare.children = predicate.children.map bare := by
  cases predicate with
  | and id operands | or id operands => exact bareEach_eq_map operands
  | constant | not | compare | isNull => rfl

@[simp] theorem asConstant?_bare (predicate : Predicate) : predicate.bare.asConstant? = predicate.asConstant? := by
  cases predicate <;> rfl

@[simp] theorem folded?_bare (predicate : Predicate) : folded? predicate.bare = folded? predicate := by
  cases predicate <;> simp [bare, folded?]

theorem bare_connective (kind : PredicateKind) (id : NodeId) (operands : List Predicate) :
    (connective kind id operands).bare = connective kind ⟨0⟩ (operands.map bare) := by
  cases kind <;> simp [connective, bare, bareEach_eq_map]

theorem flattened_bare (kind : PredicateKind) (operands : List Predicate) :
    flattened kind (operands.map bare) = (flattened kind operands).map bare := by
  rw [flattened, flattened, List.flatMap_map, List.map_flatMap]
  congr 1
  funext operand
  rw [kind_bare, children_bare]
  split <;> rfl

mutual

theorem bare_bare (predicate : Predicate) : predicate.bare.bare = predicate.bare := by
  cases predicate with
  | and _ operands | or _ operands => rw [bare, bare, bareEach_bareEach]
  | not _ operand => rw [bare, bare, bare_bare operand]
  | compare | isNull => simp only [bare, Scalar.bare_bare]
  | constant => rfl

theorem bareEach_bareEach (predicates : List Predicate) : bareEach (bareEach predicates) = bareEach predicates := by
  cases predicates with
  | nil => rfl
  | cons predicate rest => rw [bareEach, bareEach, bare_bare predicate, bareEach_bareEach rest]

end

theorem structural_bare : Structural bare where
  operator one other same := by
    show one.kind = other.kind
    rw [← kind_bare one, same, kind_bare]
  children one other same := by
    show one.children.map bare = other.children.map bare
    rw [← children_bare, same, children_bare]
  copied node mapped others id otherId size same := by
    cases node with
    | and _ operands =>
      show and ⟨0⟩ (bareEach mapped) = and ⟨0⟩ (bareEach others)
      rw [bareEach_eq_map, bareEach_eq_map, same]
    | or _ operands =>
      show or ⟨0⟩ (bareEach mapped) = or ⟨0⟩ (bareEach others)
      rw [bareEach_eq_map, bareEach_eq_map, same]
    | not _ operand =>
      obtain ⟨one, rfl⟩ := List.length_eq_one_iff.mp size
      obtain ⟨other, rfl, alike⟩ := List.map_eq_singleton_iff.mp same.symm
      exact congrArg (not ⟨0⟩) alike.symm
    | constant | compare | isNull => rfl
  recopied node id := by
    cases node <;> rfl

theorem isEmpty_scalars_bare (predicate : Predicate) : predicate.bare.scalars.isEmpty = predicate.scalars.isEmpty := by
  cases predicate <;> rfl

theorem isNested_bare (kind : PredicateKind) (predicate : Predicate) :
    isNested kind predicate.bare = isNested kind predicate := by
  simp [isNested, List.any_map, Function.comp_def]

theorem isConnective_bare (predicate : Predicate) : predicate.bare.isConnective = predicate.isConnective := by
  cases predicate <;> rfl

/-- The patterns of the rules match structurally equal predicates alike. -/
theorem simplifyingRules_respect : ∀ rule ∈ simplifyingRules, rule.pattern.Respects bare := by
  simp only [simplifyingRules, allRules, List.dropLast_cons_cons, List.dropLast_singleton, List.forall_mem_cons]
  exact ⟨trivial, Pattern.respects_filter fun predicate => congrArg _ (isEmpty_scalars_bare predicate), trivial,
    trivial, ⟨trivial, trivial⟩, ⟨⟨trivial, trivial⟩, trivial⟩, ⟨trivial, trivial⟩,
    Pattern.respects_filter (isNested_bare .and), Pattern.respects_filter (isNested_bare .or),
    Pattern.respects_filter isConnective_bare, List.forall_mem_nil _⟩

/-! What the rules make of a predicate -/

/-- The truth of a null test of a parameter that is constant for the execution. -/
def decidedTest? (environment : Environment) : Predicate → Option Truth
  | isNull _ operand => (Scalar.inlined? environment operand).map fun value => .ofBool value.isNull
  | _ => none

theorem decidedTest?_bare (environment : Environment) (predicate : Predicate) :
    decidedTest? environment predicate.bare = decidedTest? environment predicate := by
  cases predicate <;> simp [bare, decidedTest?, Scalar.inlined?_bare]

/-- The negation of a predicate in its simplest form. -/
def negated : Predicate → Predicate
  | constant _ truth => constant ⟨0⟩ truth.not
  | not _ operand => operand
  | compare _ comparison left right => compare ⟨0⟩ comparison.negate left right
  | operand => not ⟨0⟩ operand

theorem connective_ne_not {kind : PredicateKind} {id notId : NodeId} {operands : List Predicate} {operand : Predicate} :
    connective kind id operands ≠ .not notId operand := by
  cases kind <;> exact nofun

/-- What a negation turns into that is over a constant, a negation or a comparison. -/
theorem Step.bare_negated {environment : Environment} {constraints : Table Predicate Constraint}
    {supply later : Supply} {id : NodeId} {operand node : Predicate} {constraint : Constraint}
    (step : Step environment constraints supply (.not id operand) node constraint later) :
    node.bare = negated operand.bare := by
  generalize shape : Predicate.not id operand = current at step
  cases step with
  | constantNegated | doublyNegated | comparisonNegated =>
    cases shape
    rfl
  | flattened | absorbed | emptied | collapsed | reduced => exact absurd shape.symm connective_ne_not
  | parameterDecided | comparisonSimplified | nullTestSimplified | comparisonFolded | nullTestFolded => cases shape

/-- A connective of operands with nothing to flatten left among them. -/
def collapsed (kind : PredicateKind) (neutral absorbing : Truth) (operands : List Predicate) : Predicate :=
  if ∃ operand ∈ operands, operand.asConstant? = some absorbing then constant ⟨0⟩ absorbing
  else
    match operands.filter fun operand => operand.asConstant? ≠ some neutral with
    | [] => constant ⟨0⟩ neutral
    | [operand] => operand
    | kept => connective kind ⟨0⟩ kept

instance : DecidablePred Irreducible :=
  fun predicate => inferInstanceAs (Decidable (2 ≤ predicate.children.length ∧
    ∀ operand ∈ predicate.children, operand.asConstant? ≠ some .holds ∧ operand.asConstant? ≠ some .fails))

/-- What a connective comes to with its constants absorbed, if that is anything else. -/
def absorbed? (predicate : Predicate) : Option Predicate :=
  if Irreducible predicate then none
  else (identityAndAbsorbing? predicate.kind).map fun constants =>
    collapsed predicate.kind constants.1 constants.2 predicate.children

theorem absorbed?_connective {kind : PredicateKind} {neutral absorbing : Truth} {id : NodeId}
    {operands : List Predicate} (combines : IsConnectiveKind kind)
    (constants : identityAndAbsorbing? kind = some (neutral, absorbing)) :
    absorbed? (connective kind id operands) =
      if Irreducible (connective kind id operands) then none else some (collapsed kind neutral absorbing operands) := by
  rw [absorbed?, kind_connective combines, children_connective, constants]
  rfl

theorem irreducible_bare {predicate : Predicate} : Irreducible predicate.bare ↔ Irreducible predicate := by
  simp [Irreducible]

theorem collapsed_bare (kind : PredicateKind) (neutral absorbing : Truth) (operands : List Predicate) :
    collapsed kind neutral absorbing (operands.map bare) = (collapsed kind neutral absorbing operands).bare := by
  have kept : ((operands.map bare).filter fun operand => operand.asConstant? ≠ some neutral) =
      (operands.filter fun operand => operand.asConstant? ≠ some neutral).map bare := by
    simp [List.filter_map, Function.comp_def]
  unfold collapsed
  rw [kept]
  simp only [List.mem_map, exists_exists_and_eq_and, asConstant?_bare]
  split
  · rfl
  · generalize (operands.filter fun operand => operand.asConstant? ≠ some neutral) = rest
    match rest with
    | [] | [_] => rfl
    | one :: other :: rest => exact (bare_connective kind ⟨0⟩ (one :: other :: rest)).symm

theorem absorbed?_bare (predicate : Predicate) : absorbed? predicate.bare = (absorbed? predicate).map bare := by
  simp only [absorbed?, irreducible_bare, kind_bare, children_bare, collapsed_bare]
  split
  · rfl
  · rw [Option.map_map]
    rfl

end QueryOptimizer.Predicate
