import QueryOptimizer.Proofs.Predicate.Contract
import QueryOptimizer.Proofs.Predicate.Idle
import QueryOptimizer.Proofs.Scalar.Simplest

/-!
The simplest form of predicates, as a function of the predicate and the environment. Rules that overlap, such as
flattening and absorption of one connective, each lead on to the same form.
-/
namespace QueryOptimizer.Predicate

/-- The predicate, or the constant that it folds to. -/
def decided (predicate : Predicate) : Predicate :=
  ((folded? predicate).map (constant ⟨0⟩)).getD predicate

mutual

/-- The simplest form of the predicate, with the same identity in all of its nodes. -/
def simplest (environment : Environment) : Predicate → Predicate
  | constant _ truth => constant ⟨0⟩ truth
  | and _ operands => collapsed .and .holds .fails (flattened .and (simplestEach environment operands))
  | or _ operands => collapsed .or .fails .holds (flattened .or (simplestEach environment operands))
  | not _ operand => negated (simplest environment operand)
  | compare _ comparison left right =>
    decided (compare ⟨0⟩ comparison (left.simplest environment) (right.simplest environment))
  | isNull _ operand => decided (isNull ⟨0⟩ (operand.simplest environment))

def simplestEach (environment : Environment) : List Predicate → List Predicate
  | [] => []
  | predicate :: rest => simplest environment predicate :: simplestEach environment rest

end

/-- A negation of what is no constant, negation or comparison, or else as in the normal form. -/
def Shaped : Predicate → Prop
  | not _ operand => operand.kind ≠ .constant ∧ operand.kind ≠ .not ∧ operand.kind ≠ .compare
  | predicate => NormalNode predicate

/-- No rule has anything to do at the node, nor at any node of its scalars. -/
structure Plain (environment : Environment) (predicate : Predicate) : Prop where
  scalars : ∀ scalar ∈ predicate.scalars, Throughout (Scalar.Plain environment) scalar
  unfolded : folded? predicate = none
  shaped : Shaped predicate

variable {environment : Environment} {kind : PredicateKind} {neutral absorbing : Truth} {id : NodeId}
variable {operands : List Predicate}

theorem simplestEach_eq_map (predicates : List Predicate) :
    simplestEach environment predicates = predicates.map (simplest environment) := by
  induction predicates with
  | nil => rfl
  | cons predicate rest ih => rw [simplestEach, ih, List.map_cons]

theorem simplest_connective (constants : identityAndAbsorbing? kind = some (neutral, absorbing)) :
    simplest environment (connective kind id operands) =
      collapsed kind neutral absorbing (flattened kind (operands.map (simplest environment))) := by
  cases kind <;> cases constants <;> exact congrArg _ (congrArg _ (simplestEach_eq_map operands))

theorem shaped_connective : Shaped (connective kind id operands) ↔ NormalNode (connective kind id operands) := by
  cases kind <;> rfl

/-! Flattening and dropping -/

theorem ne_of_identityAndAbsorbing? (constants : identityAndAbsorbing? kind = some (neutral, absorbing)) :
    neutral ≠ absorbing := by
  cases kind <;> cases constants <;> decide

theorem combines_of_identityAndAbsorbing? (constants : identityAndAbsorbing? kind = some (neutral, absorbing)) :
    IsConnectiveKind kind := by
  cases kind with
  | and => exact .inl rfl
  | or => exact .inr rfl
  | constant | not | compare | isNull => cases constants

theorem kind_of_asConstant? {predicate : Predicate} {truth : Truth} (found : predicate.asConstant? = some truth) :
    predicate.kind = .constant := by
  obtain ⟨id, rfl⟩ := eq_constant_of_asConstant? found
  rfl

theorem ne_kind_of_asConstant? (combines : IsConnectiveKind kind) {predicate : Predicate} {truth : Truth}
    (found : predicate.asConstant? = some truth) : predicate.kind ≠ kind := by
  rw [kind_of_asConstant? found]
  rcases combines with rfl | rfl <;> exact nofun

theorem Keepable.undecided (constants : identityAndAbsorbing? kind = some (neutral, absorbing)) {operand : Predicate}
    (keepable : Keepable kind operand) :
    operand.asConstant? ≠ some neutral ∧ operand.asConstant? ≠ some absorbing := by
  cases kind with
  | and =>
    cases constants
    exact keepable.2
  | or =>
    cases constants
    exact keepable.2.symm
  | constant | not | compare | isNull => cases constants

theorem flattened_of_flat (flat : ∀ operand ∈ operands, operand.kind ≠ kind) : flattened kind operands = operands := by
  induction operands with
  | nil => rfl
  | cons operand rest ih =>
    have others := ih fun other member => flat other (List.mem_cons_of_mem _ member)
    rw [flattened] at others ⊢
    rw [List.flatMap_cons, if_neg (flat operand (List.mem_cons_self ..)), others]
    rfl

/-- Connectives of the given kind among the operands have at least two operands, and only such as the connective
around them keeps. -/
def Flattenable (kind : PredicateKind) (operands : List Predicate) : Prop :=
  ∀ operand ∈ operands, operand.kind = kind →
    2 ≤ operand.children.length ∧ ∀ inner ∈ operand.children, Keepable kind inner

theorem Flattenable.flat (flattenable : Flattenable kind operands) :
    ∀ operand ∈ flattened kind operands, operand.kind ≠ kind := by
  intro operand member
  obtain ⟨outer, present, within⟩ := List.mem_flatMap.mp member
  split at within
  · rename_i nested
    exact ((flattenable outer present nested).2 operand within).1
  · rename_i other
    exact List.mem_singleton.mp within ▸ other

/-- It does not matter whether neutral operands are dropped before or after flattening. -/
theorem Flattenable.filter (flattenable : Flattenable kind operands)
    (constants : identityAndAbsorbing? kind = some (neutral, absorbing)) :
    flattened kind (operands.filter fun operand => operand.asConstant? ≠ some neutral) =
      (flattened kind operands).filter fun operand => operand.asConstant? ≠ some neutral := by
  have combines := combines_of_identityAndAbsorbing? constants
  induction operands with
  | nil => rfl
  | cons operand rest ih =>
    have others := ih fun other member => flattenable other (List.mem_cons_of_mem _ member)
    rw [flattened, flattened] at others
    rw [flattened, flattened, List.flatMap_cons, List.filter_append, ← others]
    by_cases nested : operand.kind = kind
    · have kept : operand.asConstant? ≠ some neutral :=
        fun isConstant => ne_kind_of_asConstant? combines isConstant nested
      have inner : operand.children.filter (fun operand => operand.asConstant? ≠ some neutral) = operand.children := by
        refine List.filter_eq_self.mpr fun inner member => decide_eq_true ?_
        exact (((flattenable operand (List.mem_cons_self ..) nested).2 inner member).undecided constants).1
      rw [List.filter_cons, if_pos (decide_eq_true kept), List.flatMap_cons, if_pos nested, inner]
    · rw [if_neg nested, List.filter_cons, List.filter_cons]
      split
      · rw [List.flatMap_cons, if_neg nested]
        rfl
      · rfl

/-- Dropping neutral operands does not change what a connective collapses to. -/
theorem collapsed_filter (different : neutral ≠ absorbing) :
    collapsed kind neutral absorbing (operands.filter fun operand => operand.asConstant? ≠ some neutral) =
      collapsed kind neutral absorbing operands := by
  have absorbed : (∃ operand ∈ operands.filter (fun operand => operand.asConstant? ≠ some neutral),
      operand.asConstant? = some absorbing) ↔ ∃ operand ∈ operands, operand.asConstant? = some absorbing := by
    constructor
    · rintro ⟨operand, member, isAbsorbing⟩
      exact ⟨operand, List.mem_of_mem_filter member, isAbsorbing⟩
    · rintro ⟨operand, member, isAbsorbing⟩
      refine ⟨operand, List.mem_filter.mpr ⟨member, decide_eq_true fun isNeutral => ?_⟩, isAbsorbing⟩
      exact different (Option.some.inj (isNeutral.symm.trans isAbsorbing))
  unfold collapsed
  simp only [absorbed, List.filter_filter, Bool.and_self]

theorem collapsed_of_keepable (constants : identityAndAbsorbing? kind = some (neutral, absorbing))
    (two : 2 ≤ operands.length) (keepable : ∀ operand ∈ operands, Keepable kind operand) :
    collapsed kind neutral absorbing operands = connective kind ⟨0⟩ operands := by
  have undecided : ¬ ∃ operand ∈ operands, operand.asConstant? = some absorbing := by
    rintro ⟨operand, member, isAbsorbing⟩
    exact ((keepable operand member).undecided constants).2 isAbsorbing
  have kept : (operands.filter fun operand => operand.asConstant? ≠ some neutral) = operands :=
    List.filter_eq_self.mpr fun operand member =>
      decide_eq_true ((keepable operand member).undecided constants).1
  rw [collapsed, if_neg undecided, kept]
  rcases operands with _ | ⟨first, _ | ⟨second, rest⟩⟩
  · cases two
  · exact absurd two (by simp)
  · rfl

/-- A connective collapses to the one operand that it keeps. -/
theorem collapsed_singleton (constants : identityAndAbsorbing? kind = some (neutral, absorbing)) {kept : Predicate}
    (flattenable : Flattenable kind [kept]) (isKept : kept.asConstant? ≠ some neutral) (isBare : kept.bare = kept) :
    collapsed kind neutral absorbing (flattened kind [kept]) = kept := by
  by_cases nested : kept.kind = kind
  · obtain ⟨two, keepable⟩ := flattenable kept (List.mem_singleton_self _) nested
    obtain ⟨id, inner, rfl⟩ := eq_connective_of_kind (combines_of_identityAndAbsorbing? constants) nested
    rw [children_connective] at two keepable
    have operands : flattened kind [connective kind id inner] = inner := by
      rw [flattened, List.flatMap_singleton, if_pos nested, children_connective]
    have isZero : id = ⟨0⟩ := by
      rw [bare_connective] at isBare
      simpa using (congrArg identity isBare).symm
    rw [operands, collapsed_of_keepable constants two keepable, isZero]
  · rw [flattened_of_flat (by simpa using nested), collapsed]
    split
    · rename_i absorbed
      obtain ⟨operand, member, isAbsorbing⟩ := absorbed
      obtain rfl := List.mem_singleton.mp member
      obtain ⟨id, rfl⟩ := eq_constant_of_asConstant? isAbsorbing
      exact isBare
    · rw [List.filter_cons, if_pos (decide_eq_true isKept)]
      rfl

/-! Plain predicates -/

theorem decided_of_unfolded {predicate : Predicate} (unfolded : folded? predicate = none) :
    decided predicate = predicate := by
  rw [decided, unfolded]
  rfl

theorem decided_of_folded {predicate : Predicate} {truth : Truth} (folds : folded? predicate = some truth) :
    decided predicate = .constant ⟨0⟩ truth := by
  rw [decided, folds]
  rfl

theorem negated_of_shaped {operand : Predicate} (notConstant : operand.kind ≠ .constant)
    (notNegated : operand.kind ≠ .not) (notCompared : operand.kind ≠ .compare) :
    negated operand = .not ⟨0⟩ operand := by
  cases operand with
  | constant => exact absurd rfl notConstant
  | not => exact absurd rfl notNegated
  | compare => exact absurd rfl notCompared
  | and | or | isNull => rfl

theorem Keepable.bare {operand : Predicate} (keepable : Keepable kind operand) : Keepable kind operand.bare := by
  rwa [Keepable, kind_bare, asConstant?_bare]

theorem flattenable_of_plain (combines : IsConnectiveKind kind)
    (plain : ∀ operand ∈ operands, Throughout (Plain environment) operand) : Flattenable kind (operands.map bare) := by
  intro _ member nested
  obtain ⟨operand, present, rfl⟩ := List.mem_map.mp member
  rw [kind_bare] at nested
  obtain ⟨id, inner, rfl⟩ := eq_connective_of_kind combines nested
  have shaped := (throughout_iff.mp (plain _ present)).1.shaped
  obtain ⟨two, keepable⟩ := (normalNode_connective combines).mp (shaped_connective.mp shaped)
  rw [children_bare, children_connective, List.length_map]
  refine ⟨two, fun child member => ?_⟩
  obtain ⟨original, known, rfl⟩ := List.mem_map.mp member
  exact (keepable original known).bare

theorem simplest_of_normalNode (combines : IsConnectiveKind kind) (normal : NormalNode (connective kind id operands))
    (each : ∀ operand ∈ operands, simplest environment operand = operand.bare) :
    simplest environment (connective kind id operands) = (connective kind id operands).bare := by
  obtain ⟨neutral, absorbing, constants⟩ := identityAndAbsorbing?_of_combines combines
  obtain ⟨two, keepable⟩ := (normalNode_connective combines).mp normal
  have keeps : ∀ operand ∈ operands.map bare, Keepable kind operand := by
    intro _ member
    obtain ⟨operand, present, rfl⟩ := List.mem_map.mp member
    exact (keepable operand present).bare
  rw [simplest_connective constants, List.map_congr_left each, bare_connective,
    flattened_of_flat fun operand member => (keeps operand member).1,
    collapsed_of_keepable constants (by rwa [List.length_map]) keeps]

/-- A predicate of plain nodes is its own simplest form. -/
theorem simplest_of_plain {predicate : Predicate} (plain : Throughout (Plain environment) predicate) :
    simplest environment predicate = predicate.bare := by
  induction predicate using Tree.childInduction with
  | step predicate ih =>
    obtain ⟨here, below⟩ := throughout_iff.mp plain
    have each : ∀ child ∈ predicate.children, simplest environment child = child.bare :=
      fun child member => ih child member (below child member)
    cases predicate with
    | constant => rfl
    | and id operands => exact simplest_of_normalNode (.inl rfl) here.shaped each
    | or id operands => exact simplest_of_normalNode (.inr rfl) here.shaped each
    | not id operand =>
      obtain ⟨notConstant, notNegated, notCompared⟩ := here.shaped
      rw [simplest, each operand (List.mem_singleton_self _), bare]
      exact negated_of_shaped (by rwa [kind_bare]) (by rwa [kind_bare]) (by rwa [kind_bare])
    | compare id comparison left right =>
      have leftBare := Scalar.simplest_of_plain (here.scalars left (by simp [scalars]))
      have rightBare := Scalar.simplest_of_plain (here.scalars right (by simp [scalars]))
      rw [simplest, leftBare, rightBare]
      exact decided_of_unfolded ((folded?_bare _).trans here.unfolded)
    | isNull id operand =>
      have operandBare := Scalar.simplest_of_plain (here.scalars operand (List.mem_singleton_self _))
      rw [simplest, operandBare]
      exact decided_of_unfolded ((folded?_bare _).trans here.unfolded)

theorem simplest_composed : Composed (simplest environment) := by
  intro node mapped id alike
  have same := map_eq_of_alike alike
  cases node with
  | and _ operands | or _ operands =>
    show simplest environment (copyOver _ _ _) = _
    rw [copyOver, simplest, simplest, simplestEach_eq_map, simplestEach_eq_map, same]
    rfl
  | not _ operand =>
    obtain ⟨result, rfl⟩ := List.length_eq_one_iff.mp alike.length_eq.symm
    exact congrArg negated (List.singleton_inj.mp same)
  | constant | compare | isNull => rfl

/-! Steps -/

/-- The simplest forms of plain operands. -/
theorem map_simplest_of_plain (plain : ∀ operand ∈ operands, Throughout (Plain environment) operand) :
    operands.map (simplest environment) = operands.map bare :=
  List.map_congr_left fun operand member => simplest_of_plain (plain operand member)

theorem filter_map_bare (operands : List Predicate) :
    (operands.filter fun operand => operand.asConstant? ≠ some neutral).map bare =
      (operands.map bare).filter fun operand => operand.asConstant? ≠ some neutral := by
  rw [List.filter_map]
  simp [Function.comp_def]

theorem simplest_of_eval? {leftId rightId : NodeId} {comparison : Comparison} {left right : Literal} {truth : Truth}
    (evaluated : comparison.eval? left right = some truth) :
    simplest environment (.compare id comparison (.literal leftId left) (.literal rightId right)) =
      .constant ⟨0⟩ truth :=
  decided_of_folded
    (show folded? (.compare ⟨0⟩ comparison (.literal ⟨0⟩ left) (.literal ⟨0⟩ right)) = some truth from evaluated)

theorem simplest_of_doublyNegated {innerId : NodeId} {operand : Predicate}
    (plain : Throughout (Plain environment) (.not innerId operand)) :
    simplest environment (.not id (.not innerId operand)) = simplest environment operand := by
  have inner := (throughout_iff.mp plain).2 operand (List.mem_singleton_self _)
  rw [simplest, simplest_of_plain plain, simplest_of_plain inner]
  rfl

/-- A comparison that does not fold has a negation that does not fold. -/
theorem folded?_negate (comparison : Comparison) (left right : Scalar) (otherId : NodeId) :
    folded? (.compare id comparison.negate left right) =
      (folded? (.compare otherId comparison left right)).map Truth.not := by
  rw [folded?, folded?]
  cases left.asLiteral? with
  | none => rfl
  | some leftValue =>
    cases right.asLiteral? with
    | none => rfl
    | some rightValue => exact comparison.eval?_negate leftValue rightValue

theorem simplest_of_comparisonNegated {innerId otherId : NodeId} {comparison : Comparison} {left right : Scalar}
    (plain : Throughout (Plain environment) (.compare innerId comparison left right)) :
    simplest environment (.not id (.compare innerId comparison left right)) =
      simplest environment (.compare otherId comparison.negate left right) := by
  have here := (throughout_iff.mp plain).1
  have negationPlain : Throughout (Plain environment) (.compare otherId comparison.negate left right) := by
    refine throughout_iff.mpr ⟨⟨here.scalars, ?_, trivial⟩, throughoutBelow_of_leaf rfl⟩
    rw [folded?_negate comparison left right innerId, here.unfolded]
    rfl
  rw [simplest, simplest_of_plain plain, simplest_of_plain negationPlain]
  rfl

section Connective
variable (constants : identityAndAbsorbing? kind = some (neutral, absorbing))
include constants

theorem simplest_of_absorbing {absorberId : NodeId} (member : .constant absorberId absorbing ∈ operands) :
    simplest environment (connective kind id operands) = .constant ⟨0⟩ absorbing := by
  have combines := combines_of_identityAndAbsorbing? constants
  have absorber : .constant ⟨0⟩ absorbing ∈ operands.map (simplest environment) :=
    List.mem_map.mpr ⟨_, member, rfl⟩
  have other : (Predicate.constant ⟨0⟩ absorbing).kind ≠ kind := ne_kind_of_asConstant? combines rfl
  have present : .constant ⟨0⟩ absorbing ∈ flattened kind (operands.map (simplest environment)) := by
    refine List.mem_flatMap.mpr ⟨_, absorber, ?_⟩
    rw [if_neg other]
    exact List.mem_singleton_self _
  rw [simplest_connective constants, collapsed, if_pos ⟨_, present, rfl⟩]

variable (plain : ∀ operand ∈ operands, Throughout (Plain environment) operand)
include plain

theorem simplest_flattened {newId : NodeId} :
    simplest environment (connective kind newId (flattened kind operands)) =
      simplest environment (connective kind id operands) := by
  have flattenable := flattenable_of_plain (combines_of_identityAndAbsorbing? constants) plain
  have plainInner : ∀ operand ∈ flattened kind operands, Throughout (Plain environment) operand := by
    intro operand member
    rcases of_mem_flattened member with direct | ⟨outer, present, below⟩
    · exact plain operand direct
    · exact (throughout_iff.mp (plain outer present)).2 operand below
  rw [simplest_connective constants, simplest_connective constants, map_simplest_of_plain plainInner,
    map_simplest_of_plain plain, ← flattened_bare, flattened_of_flat flattenable.flat]

/-- The simplest form of a connective is that of the operands that are not neutral. -/
theorem simplest_filter : simplest environment (connective kind id operands) = collapsed kind neutral absorbing
    (flattened kind ((operands.filter fun operand => operand.asConstant? ≠ some neutral).map bare)) := by
  have flattenable := flattenable_of_plain (combines_of_identityAndAbsorbing? constants) plain
  rw [simplest_connective constants, map_simplest_of_plain plain, filter_map_bare, flattenable.filter constants,
    collapsed_filter (ne_of_identityAndAbsorbing? constants)]

theorem simplest_reduced {newId : NodeId} :
    simplest environment (connective kind newId (operands.filter fun operand => operand.asConstant? ≠ some neutral)) =
      simplest environment (connective kind id operands) := by
  have kept : ∀ operand ∈ operands.filter (fun operand => operand.asConstant? ≠ some neutral),
      Throughout (Plain environment) operand := fun operand member => plain operand (List.mem_of_mem_filter member)
  rw [simplest_filter constants plain, simplest_connective constants, map_simplest_of_plain kept]

theorem simplest_of_neutral (neutralEach : ∀ operand ∈ operands, operand.asConstant? = some neutral) :
    simplest environment (connective kind id operands) = .constant ⟨0⟩ neutral := by
  have none : (operands.filter fun operand => operand.asConstant? ≠ some neutral) = [] :=
    List.filter_eq_nil_iff.mpr (by simpa using neutralEach)
  rw [simplest_filter constants plain, none]
  exact if_neg (by simp [flattened])

theorem simplest_of_single {kept : Predicate}
    (single : (operands.filter fun operand => operand.asConstant? ≠ some neutral) = [kept]) :
    simplest environment (connective kind id operands) = kept.bare := by
  have member : kept ∈ operands.filter fun operand => operand.asConstant? ≠ some neutral :=
    single ▸ List.mem_singleton_self kept
  obtain ⟨present, isKept⟩ := List.mem_filter.mp member
  have alone : ∀ operand ∈ [kept], Throughout (Plain environment) operand := by simpa using plain kept present
  have flattenable : Flattenable kind [kept.bare] :=
    flattenable_of_plain (combines_of_identityAndAbsorbing? constants) alone
  rw [simplest_filter constants plain, single]
  exact collapsed_singleton constants flattenable (by simpa using isKept) (bare_bare kept)

end Connective

section Step
variable {nodes : Set Predicate} {constraints : Table Predicate Constraint} {supply later : Supply}
variable {current node : Predicate} {constraint : Constraint}

/-- Simplified scalars have the same simplest form. -/
theorem scalar_simplest {nodes : Set Scalar} {scalar : Scalar} {simplified : Constrained Scalar}
    (arena : Arena nodes supply) (present : scalar ∈ nodes)
    (found : simplify (Scalar.setting environment ⟨Scalar.allRules⟩) scalar ⟨supply, ()⟩ =
      .ok simplified ⟨later, ()⟩) :
    ∃ wider, nodes ⊆ wider ∧ Arena wider later ∧
      simplified.value.simplest environment = scalar.simplest environment := by
  obtain ⟨wider, included, settles, -, plain, form⟩ :=
    (Scalar.simplify_simplest environment (fun _ => Iff.rfl) arena present).at_ok found
  exact ⟨wider, included, settles, (Scalar.simplest_of_plain plain).trans form⟩

/-- No replacement over plain nodes changes the simplest form. -/
theorem Step.simplest (step : Step environment constraints supply current node constraint later)
    (settled : Settled nodes supply) (present : current ∈ nodes) (below : ThroughoutBelow (Plain environment) current) :
    node.simplest environment = current.simplest environment := by
  have operands {kind : PredicateKind} {id : NodeId} {operands : List Predicate}
      (below : ThroughoutBelow (Plain environment) (connective kind id operands)) :
      ∀ operand ∈ operands, Throughout (Plain environment) operand := by
    intro operand member
    rw [← children_connective kind id operands] at member
    exact below operand member
  cases step with
  | parameterDecided constant found =>
    rw [Predicate.simplest, Predicate.simplest, Scalar.simplest_of_constant constant found]
    rfl
  | comparisonSimplified foundLeft foundRight =>
    obtain ⟨middle, first, arena, left⟩ :=
      scalar_simplest settled.scalars (mem_scalarNodes present (List.mem_cons_self ..)) foundLeft
    obtain ⟨wider, second, arena, right⟩ :=
      scalar_simplest arena (first (mem_scalarNodes present (by simp [scalars]))) foundRight
    rw [Predicate.simplest, Predicate.simplest, left, right]
  | nullTestSimplified found =>
    obtain ⟨wider, included, arena, operand⟩ :=
      scalar_simplest settled.scalars (mem_scalarNodes present (List.mem_cons_self ..)) found
    rw [Predicate.simplest, Predicate.simplest, operand]
  | comparisonFolded evaluated => exact (simplest_of_eval? evaluated).symm
  | nullTestFolded => rfl
  | constantNegated => rfl
  | doublyNegated => exact (simplest_of_doublyNegated (below _ (List.mem_singleton_self _))).symm
  | comparisonNegated => exact (simplest_of_comparisonNegated (below _ (List.mem_singleton_self _))).symm
  | flattened combines =>
    obtain ⟨neutral, absorbing, constants⟩ := identityAndAbsorbing?_of_combines combines
    exact simplest_flattened constants (operands below)
  | absorbed constants member => exact (simplest_of_absorbing constants member).symm
  | emptied constants neutralEach => exact (simplest_of_neutral constants (operands below) neutralEach).symm
  | collapsed constants single =>
    have kept := List.mem_of_mem_filter (single ▸ List.mem_singleton_self _)
    exact (simplest_of_plain (operands below _ kept)).trans (simplest_of_single constants (operands below) single).symm
  | reduced constants => exact simplest_reduced constants (operands below)

end Step
end QueryOptimizer.Predicate
