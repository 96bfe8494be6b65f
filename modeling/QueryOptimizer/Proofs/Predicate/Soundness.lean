import QueryOptimizer.Proofs.Predicate.Connective
import QueryOptimizer.Proofs.Predicate.Termination
import QueryOptimizer.Proofs.Scalar.Soundness

/-!
The rules for predicates preserve what predicates evaluate to, under the constraints that they record.
-/
namespace QueryOptimizer

theorem Arena.restrict {ν ω : Type} [Tree ν ω] {nodes inner : Set ν} {supply : Supply}
    (arena : Arena nodes supply) (included : inner ⊆ nodes)
    (closed : ∀ node ∈ inner, ∀ child ∈ Tree.children node, child ∈ inner) : Arena inner supply :=
  ⟨fun node member => arena.allocated node (included member),
    fun one first other second => arena.distinct one (included first) other (included second), closed⟩

namespace Predicate

/-- The nodes of the scalars that some predicates are about. -/
def scalarNodes (nodes : Set Predicate) : Set Scalar :=
  {scalar | ∃ node ∈ nodes, ∃ root ∈ node.scalars, scalar ∈ Tree.postOrder root}

/-- Predicates and the scalars that they are about can exist side by side. -/
structure Settled (nodes : Set Predicate) (supply : Supply) : Prop where
  arena : Arena nodes supply
  scalars : Arena (scalarNodes nodes) supply

variable {nodes : Set Predicate} {supply later : Supply} {node : Predicate}

theorem mem_scalarNodes (present : node ∈ nodes) {scalar : Scalar} (member : scalar ∈ node.scalars) :
    scalar ∈ scalarNodes nodes :=
  ⟨node, present, scalar, member, Tree.root_mem_postOrder scalar⟩

theorem scalarNodes_closed (nodes : Set Predicate) :
    ∀ scalar ∈ scalarNodes nodes, ∀ child ∈ Tree.children scalar, child ∈ scalarNodes nodes := by
  intro scalar member child below
  obtain ⟨node, present, root, about, within⟩ := member
  exact ⟨node, present, root, about, Tree.child_mem_postOrder within below⟩

/-- A predicate about scalars that can exist beside the others can join them. -/
theorem Settled.insert (arena : Arena (Insert.insert node nodes) later) {wider : Set Scalar}
    (scalars : Arena wider later) (included : scalarNodes nodes ⊆ wider)
    (about : ∀ scalar ∈ node.scalars, scalar ∈ wider) : Settled (Insert.insert node nodes) later := by
  refine ⟨arena, scalars.restrict ?_ (scalarNodes_closed _)⟩
  intro scalar member
  obtain ⟨owner, present, root, belongs, within⟩ := member
  rcases Set.mem_insert_iff.mp present with rfl | old
  · exact scalars.subtree (about root belongs) within
  · exact included ⟨owner, old, root, belongs, within⟩

/-- Predicates under their scalars are a habitat for simplification. -/
theorem settled_habitat : Habitat Settled := by
  refine ⟨fun _ _ settled => settled.arena, ?_, ?_⟩
  · intro nodes supply later settled more
    exact ⟨settled.arena.mono more, settled.scalars.mono more⟩
  · intro nodes supply node mapped settled present size below
    have joined : Arena (Insert.insert (Tree.copyOver node mapped supply.draw.1) nodes) supply.draw.2 := by
      refine settled.arena.insert (LawfulTree.identity_copyOver _ _ _) ?_
      rwa [LawfulTree.children_copyOver _ _ _ size]
    refine .insert joined (settled.scalars.mono (Nat.le_succ _)) subset_rfl ?_
    have same : (Tree.copyOver node mapped supply.draw.1).scalars = node.scalars := by
      cases node <;> rfl
    intro scalar member
    exact mem_scalarNodes present (same ▸ member)

section Step
variable {environment : Environment} {constraints : Table Predicate Constraint}
variable {current : Predicate} {constraint : Constraint} {meaning : Valuation → Option Truth}

/-- What is known of a simplification that was found to return, for a scalar in an arena. -/
theorem scalar_refines {nodes : Set Scalar} {scalar : Scalar} {simplified : Constrained Scalar}
    (arena : Arena nodes supply) (present : scalar ∈ nodes)
    (found : simplify (Scalar.setting environment ⟨Scalar.allRules⟩) scalar ⟨supply, ()⟩ =
      .ok simplified ⟨later, ()⟩) :
    ∃ wider, nodes ⊆ wider ∧ Arena wider later ∧ simplified.value ∈ wider ∧
      ∀ valuation, simplified.constraint.Holds valuation.parameters →
        Refines (scalar.eval valuation) (simplified.value.eval valuation) :=
  (Scalar.simplify_refines environment ⟨supply, ()⟩ arena present).at_ok found

/-- The replacement and its scalars can exist beside the nodes there are. -/
theorem Step.settles (step : Step environment constraints supply current node constraint later)
    (settled : Settled nodes supply) (present : current ∈ nodes) : Settled (insert node nodes) later := by
  have joined := step.joins settled.arena present
  have more := step.allocates
  have without (none : node.scalars = []) : Settled (insert node nodes) later :=
    .insert joined (settled.scalars.mono more) subset_rfl (by simp [none])
  have among (known : node ∈ nodes) : Settled (insert node nodes) later :=
    .insert joined (settled.scalars.mono more) subset_rfl fun _ member => mem_scalarNodes known member
  cases step with
  | parameterDecided | comparisonFolded | nullTestFolded | constantNegated | absorbed | emptied =>
    exact without rfl
  | flattened | reduced => exact without (scalars_connective _ _ _)
  | comparisonSimplified foundLeft foundRight =>
    obtain ⟨some, first, arena, left, -⟩ :=
      scalar_refines settled.scalars (mem_scalarNodes present (List.mem_cons_self ..)) foundLeft
    obtain ⟨wider, second, arena, right, -⟩ :=
      scalar_refines arena (first (mem_scalarNodes present (by simp [scalars]))) foundRight
    refine .insert joined (arena.mono (Nat.le_succ _)) (first.trans second) ?_
    intro scalar member
    rcases List.mem_cons.mp member with rfl | last
    · exact second left
    · exact List.mem_singleton.mp last ▸ right
  | nullTestSimplified found =>
    obtain ⟨wider, included, arena, operand, -⟩ :=
      scalar_refines settled.scalars (mem_scalarNodes present (List.mem_cons_self ..)) found
    refine .insert joined (arena.mono (Nat.le_succ _)) included ?_
    intro scalar member
    exact List.mem_singleton.mp member ▸ operand
  | doublyNegated =>
    have inner := settled.arena.closed _ present _ (List.mem_singleton_self _)
    exact among (settled.arena.closed _ inner _ (List.mem_singleton_self _))
  | comparisonNegated =>
    have inner := settled.arena.closed _ present _ (List.mem_singleton_self _)
    exact .insert joined (settled.scalars.mono more) subset_rfl fun _ member => mem_scalarNodes inner member
  | collapsed _ single =>
    exact among (operand_present settled.arena present
      (List.mem_of_mem_filter (single ▸ List.mem_singleton_self _)))

/-- A connective has the value of its operands without the neutral constants among them. -/
theorem dropped_positions {kind : PredicateKind} {neutral absorbing : Truth} {id : NodeId}
    {operands : List Predicate} (constants : identityAndAbsorbing? kind = some (neutral, absorbing))
    (stands : StandsFor interpretation constraints meaning (connective kind id operands)) :
    ∃ positions : List ((Valuation → Option Truth) × Predicate),
      positions.map Prod.snd = (operands.filter fun operand => operand.asConstant? ≠ some neutral) ∧
      (∀ position ∈ positions, StandsFor interpretation constraints position.1 position.2) ∧
      ∀ valuation, (constraints.recorded (connective kind id operands)).Holds valuation.parameters →
        (∀ operand ∈ operands.filter (fun operand => operand.asConstant? = some neutral),
          (constraints.recorded operand).Holds valuation.parameters) →
        ∀ truth, meaning valuation = some truth →
          ∃ truths, positions.map (fun position => position.1 valuation) = truths.map some ∧
            Truth.connect kind truths = truth := by
  obtain ⟨all, rfl, below, determined⟩ := connective_positions stands
  obtain ⟨positions, kept, stand, same⟩ := expands_all constraints kind
    (fun operand valuation => operand.asConstant? = some neutral →
      (constraints.recorded operand).Holds valuation.parameters)
    (fun operand => if operand.asConstant? = some neutral then [] else [operand]) all (by
      intro position member
      by_cases drops : position.2.asConstant? = some neutral
      · refine ⟨[], ⟨by rw [if_pos drops]; rfl, by simp, ?_⟩⟩
        intro valuation holds truth found
        obtain ⟨constantId, isConstant⟩ := eq_constant_of_asConstant? drops
        have applied := leaf_position (below position member) (by rw [isConstant]; rfl) (holds drops) found
        rw [isConstant] at applied
        cases applied
        exact ⟨[], rfl, Truth.connect_nil constants⟩
      · refine ⟨[position], ⟨by rw [if_neg drops]; rfl, by simpa using below position member, ?_⟩⟩
        intro valuation _ truth found
        exact ⟨[truth], by simp [found], Truth.connect_singleton kind truth⟩)
  refine ⟨positions, ?_, stand, ?_⟩
  · rw [kept]
    generalize all.map Prod.snd = operands
    induction operands with
    | nil => rfl
    | cons operand rest ih =>
      rw [List.flatMap_cons, ih, List.filter_cons]
      split <;> simp_all
  · intro valuation holds dropped truth found
    obtain ⟨truths, known, value⟩ := determined valuation holds truth found
    obtain ⟨others, expanded, equal⟩ := same valuation (fun position member drops =>
      dropped position.2 (List.mem_filter.mpr ⟨List.mem_map_of_mem member, decide_eq_true drops⟩)) truths known
    exact ⟨others, expanded, equal.trans value⟩

/-- A connective has the value of its operands with the operands of nested connectives among them. -/
theorem flattened_positions {kind : PredicateKind} {id : NodeId} {operands : List Predicate}
    (combines : IsConnectiveKind kind)
    (stands : StandsFor interpretation constraints meaning (connective kind id operands)) :
    ∃ positions : List ((Valuation → Option Truth) × Predicate),
      positions.map Prod.snd = flattened kind operands ∧
      (∀ position ∈ positions, StandsFor interpretation constraints position.1 position.2) ∧
      ∀ valuation, (constraints.recorded (connective kind id operands)).Holds valuation.parameters →
        (∀ operand ∈ operands.filter (fun operand => operand.kind = kind),
          (constraints.recorded operand).Holds valuation.parameters) →
        ∀ truth, meaning valuation = some truth →
          ∃ truths, positions.map (fun position => position.1 valuation) = truths.map some ∧
            Truth.connect kind truths = truth := by
  obtain ⟨all, rfl, below, determined⟩ := connective_positions stands
  obtain ⟨positions, flat, stand, same⟩ := expands_all constraints kind
    (fun operand valuation => operand.kind = kind →
      (constraints.recorded operand).Holds valuation.parameters)
    (fun operand => if operand.kind = kind then operand.children else [operand]) all (by
      intro position member
      by_cases nested : position.2.kind = kind
      · obtain ⟨innerId, innerOperands, isConnective⟩ := eq_connective_of_kind combines nested
        have stands := below position member
        rw [isConnective] at stands
        obtain ⟨inner, operands, innerBelow, innerDetermined⟩ := connective_positions stands
        refine ⟨inner, ⟨?_, innerBelow, ?_⟩⟩
        · rw [if_pos nested, isConnective, children_connective, operands]
        · intro valuation holds truth found
          have needed := holds nested
          rw [isConnective] at needed
          exact innerDetermined valuation needed truth found
      · refine ⟨[position], ⟨by rw [if_neg nested]; rfl, by simpa using below position member, ?_⟩⟩
        intro valuation _ truth found
        exact ⟨[truth], by simp [found], Truth.connect_singleton kind truth⟩)
  refine ⟨positions, flat, stand, ?_⟩
  intro valuation holds dissolved truth found
  obtain ⟨truths, known, value⟩ := determined valuation holds truth found
  obtain ⟨others, expanded, equal⟩ := same valuation (fun position member nested =>
    dissolved position.2 (List.mem_filter.mpr ⟨List.mem_map_of_mem member, decide_eq_true nested⟩)) truths known
  exact ⟨others, expanded, equal.trans value⟩

/-- A condition on whether a parameter is null decides the null test of what it is bound to. -/
theorem isNull_of_holds {parameters : Parameters} {symbol : Alias} {value bound : Literal}
    (holds : Condition.Holds parameters (if value.isNull then .isNull symbol else .isNotNull symbol))
    (found : parameters.get? symbol = some bound) : bound.isNull = value.isNull := by
  cases null : value.isNull with
  | true =>
    rw [if_pos null] at holds
    rw [Option.some.inj (found.symm.trans holds)]
    rfl
  | false =>
    rw [if_neg (by simp [null])] at holds
    cases bound with
    | null => exact False.elim (holds found)
    | bool | int | string => rfl

/-- A replacement stands for whatever the replaced node stood for. -/
theorem Step.stands (step : Step environment constraints supply current node constraint later)
    (settled : Settled nodes supply) (present : current ∈ nodes)
    (stands : StandsFor interpretation constraints meaning current) :
    StandsFor interpretation (attachConstraint constraints current node constraint) meaning node := by
  cases step with
  | parameterDecided =>
    refine .leaf rfl ?_
    intro valuation currentHolds holds truth found
    have applied := leaf_position stands rfl currentHolds found
    obtain ⟨operand, known, tested⟩ := Option.bind_eq_some_iff.mp applied
    obtain ⟨bound, isBound, rfl⟩ := Option.map_eq_some_iff.mp known
    rw [Value.isNull_ofLiteral, isNull_of_holds (holds _ (Constraint.mem_of.mpr rfl)) isBound] at tested
    exact tested
  | comparisonSimplified foundLeft foundRight _ keepsLeft keepsRight =>
    obtain ⟨some, first, arena, -, left⟩ :=
      scalar_refines settled.scalars (mem_scalarNodes present (List.mem_cons_self ..)) foundLeft
    obtain ⟨_, _, _, -, right⟩ :=
      scalar_refines arena (first (mem_scalarNodes present (by simp [scalars]))) foundRight
    refine .leaf rfl ?_
    intro valuation currentHolds holds truth found
    have applied := leaf_position stands rfl currentHolds found
    obtain ⟨one, leftValue, applied⟩ := Option.bind_eq_some_iff.mp applied
    obtain ⟨other, rightValue, compared⟩ := Option.bind_eq_some_iff.mp applied
    have newLeft := left valuation (fun condition member => holds condition (keepsLeft condition member)) one
      leftValue
    have newRight := right valuation (fun condition member => holds condition (keepsRight condition member)) other
      rightValue
    exact Option.bind_eq_some_iff.mpr ⟨one, newLeft, Option.bind_eq_some_iff.mpr ⟨other, newRight, compared⟩⟩
  | nullTestSimplified foundOperand _ keeps =>
    obtain ⟨_, _, _, -, operand⟩ :=
      scalar_refines settled.scalars (mem_scalarNodes present (List.mem_cons_self ..)) foundOperand
    refine .leaf rfl ?_
    intro valuation currentHolds holds truth found
    have applied := leaf_position stands rfl currentHolds found
    obtain ⟨value, known, tested⟩ := Option.bind_eq_some_iff.mp applied
    have new := operand valuation (fun condition member => holds condition (keeps condition member)) value known
    exact Option.bind_eq_some_iff.mpr ⟨value, new, tested⟩
  | @comparisonFolded _ comparison left right _ _ _ _ folded =>
    refine .leaf rfl ?_
    intro valuation currentHolds _ truth found
    have applied := leaf_position stands rfl currentHolds found
    have compared : comparison.apply (.ofLiteral left) (.ofLiteral right) = some truth := applied
    rw [Comparison.apply_ofLiteral, folded] at compared
    exact compared
  | @nullTestFolded _ _ _ value =>
    refine .leaf rfl ?_
    intro valuation currentHolds _ truth found
    have applied := leaf_position stands rfl currentHolds found
    have tested : some (Truth.ofBool (Value.ofLiteral value).isNull) = some truth := applied
    rw [Value.isNull_ofLiteral] at tested
    exact tested
  | constantNegated carries =>
    obtain ⟨inner, constantStands, determined⟩ := not_position stands
    refine .leaf rfl ?_
    intro valuation currentHolds holds truth found
    have negated := determined valuation currentHolds truth found
    have applied := leaf_position constantStands rfl (carries.holds holds (by simp)) negated
    rw [Option.some.inj applied, Truth.not_not]
    rfl
  | doublyNegated carries =>
    obtain ⟨inner, innerStands, determined⟩ := not_position stands
    obtain ⟨innermost, operandStands, innerDetermined⟩ := not_position innerStands
    refine .takesOver operandStands ?_
    intro valuation currentHolds holds truth found
    have negated := determined valuation currentHolds truth found
    have again := innerDetermined valuation (carries.holds holds (by simp)) truth.not negated
    rwa [Truth.not_not] at again
  | comparisonNegated carries =>
    obtain ⟨inner, comparisonStands, determined⟩ := not_position stands
    refine .leaf rfl ?_
    intro valuation currentHolds holds truth found
    have negated := determined valuation currentHolds truth found
    have applied := leaf_position comparisonStands rfl (carries.holds holds (by simp)) negated
    obtain ⟨one, leftValue, applied⟩ := Option.bind_eq_some_iff.mp applied
    obtain ⟨other, rightValue, compared⟩ := Option.bind_eq_some_iff.mp applied
    refine Option.bind_eq_some_iff.mpr ⟨one, leftValue, Option.bind_eq_some_iff.mpr ⟨other, rightValue, ?_⟩⟩
    rw [Comparison.apply_negate, compared, Option.map_some, Truth.not_not]
  | flattened combines nested carries =>
    obtain ⟨positions, flat, below, determined⟩ := flattened_positions combines stands
    refine .replaced positions (flat.trans (children_connective _ _ _).symm) below ?_
    intro valuation _ currentHolds holds truth found
    obtain ⟨truths, known, connected⟩ := determined valuation currentHolds
      (fun operand member => carries.holds holds member) truth found
    refine ⟨truths, known, ?_⟩
    rw [← connected]
    exact apply_connective _ _ _ _ _
  | absorbed constants member carries =>
    obtain ⟨positions, operands, below, determined⟩ := connective_positions stands
    obtain ⟨position, present, same⟩ := List.mem_map.mp (operands ▸ member)
    refine .takesOver (same ▸ below position present) ?_
    intro valuation currentHolds holds truth found
    obtain ⟨truths, known, connected⟩ := determined valuation currentHolds truth found
    have decides : position.1 valuation ∈ truths.map some :=
      known ▸ List.mem_map_of_mem (f := fun position => position.1 valuation) present
    obtain ⟨decision, among, value⟩ := List.mem_map.mp decides
    have applied := leaf_position (same ▸ below position present) rfl (carries.holds holds (by simp)) value.symm
    cases applied
    rw [← connected, Truth.connect_of_absorbing constants among]
    exact value.symm
  | @emptied _ _ operands _ _ _ constants all carries =>
    obtain ⟨positions, kept, below, determined⟩ := dropped_positions constants stands
    rw [List.filter_eq_nil_iff.mpr (by simpa using all)] at kept
    obtain rfl : positions = [] := List.map_eq_nil_iff.mp kept
    refine .leaf rfl ?_
    intro valuation currentHolds holds truth found
    obtain ⟨truths, known, connected⟩ := determined valuation currentHolds
      (fun operand member => carries.holds holds (List.mem_of_mem_filter member)) truth found
    obtain rfl : truths = [] := List.map_eq_nil_iff.mp known.symm
    rw [← connected, Truth.connect_nil constants]
    rfl
  | collapsed constants single carries =>
    obtain ⟨positions, kept, below, determined⟩ := dropped_positions constants stands
    rw [single] at kept
    obtain ⟨position, rfl, rfl⟩ := List.map_eq_singleton_iff.mp kept
    refine .takesOver (below position (by simp)) ?_
    intro valuation currentHolds holds truth found
    obtain ⟨truths, known, connected⟩ := determined valuation currentHolds
      (fun operand member => carries.holds holds member) truth found
    obtain ⟨one, rfl, same⟩ := List.map_eq_singleton_iff.mp known.symm
    rw [Truth.connect_singleton] at connected
    exact same.symm.trans (congrArg some connected)
  | reduced constants _ carries =>
    obtain ⟨positions, kept, below, determined⟩ := dropped_positions constants stands
    refine .replaced positions (kept.trans (children_connective _ _ _).symm) below ?_
    intro valuation _ currentHolds holds truth found
    obtain ⟨truths, known, connected⟩ := determined valuation currentHolds
      (fun operand member => carries.holds holds member) truth found
    refine ⟨truths, known, ?_⟩
    rw [← connected]
    exact apply_connective _ _ _ _ _

/-- Negations of operands stand for the negated values of these. -/
theorem negations_stand {meanings : List (Valuation → Option Truth)} {operands : List Predicate}
    (below : List.Forall₂ (StandsFor interpretation constraints) meanings operands) (allocated : Nat) :
    List.Forall₂ (StandsFor interpretation constraints)
      (meanings.map fun inner valuation => (inner valuation).map Truth.not) (negations allocated operands) := by
  induction below generalizing allocated with
  | nil => exact .nil
  | @cons inner operand _ _ stands _ ih =>
    have single : List.Forall₂ (StandsFor interpretation constraints) [inner] [operand] := .cons stands .nil
    refine .cons (.of_children single ?_) (ih (allocated + 1))
    intro valuation _ truth found
    obtain ⟨negated, known, rfl⟩ := Option.map_eq_some_iff.mp found
    exact ⟨[negated], congrArg (fun value => [value]) known, rfl⟩

/-- What a negation over a connective becomes stands for whatever the negation stood for. -/
theorem PushesDown.stands (pushes : PushesDown constraints supply current node constraint later)
    (stands : StandsFor interpretation constraints meaning current) :
    StandsFor interpretation (attachConstraint constraints current node constraint) meaning node := by
  cases pushes with
  | @intro dual innerId operands constraint kind id isDual carries =>
    obtain ⟨inner, connectiveStands, negated⟩ := not_position stands
    obtain ⟨positions, rfl, below, determined⟩ := connective_positions connectiveStands
    have each : List.Forall₂ (StandsFor interpretation constraints) (positions.map Prod.fst)
        (positions.map Prod.snd) := by
      rw [List.forall₂_map_left_iff, List.forall₂_map_right_iff, List.forall₂_same]
      exact below
    obtain ⟨expanded, meanings, nodes, belowToo⟩ := StandsFor.exists_positions (negations_stand each supply.allocated)
    refine .replaced expanded (nodes.trans (children_connective _ _ _).symm) belowToo ?_
    intro valuation _ currentHolds holds truth found
    obtain ⟨truths, known, connected⟩ := determined valuation (carries.holds holds (by simp)) truth.not
      (negated valuation currentHolds truth found)
    refine ⟨truths.map Truth.not, ?_, ?_⟩
    · calc
        expanded.map (fun position => position.1 valuation)
          = (expanded.map Prod.fst).map (fun inner => inner valuation) := by rw [List.map_map]; rfl
        _ = (positions.map fun position => position.1 valuation).map (Option.map Truth.not) := by
          rw [meanings, List.map_map, List.map_map, List.map_map]
          rfl
        _ = (truths.map Truth.not).map some := by
          rw [known, List.map_map, List.map_map]
          rfl
    · refine (apply_connective _ _ _ _ _).trans ?_
      rw [Truth.connect_not isDual, connected, Truth.not_not]

end Step

/-- Simplification of a predicate with the default rules preserves its truth: wherever the predicate has
one, the result has the same, if the returned constraint holds. -/
theorem simplify_refines (environment : Environment) {predicate : Predicate} {nodes : Set Predicate}
    {session : Session Unit} (settled : Settled nodes session.supply) (present : predicate ∈ nodes) :
    Returns (simplify (setting environment ⟨simplifyingRules⟩) predicate) session fun simplified after =>
      ∃ wider, nodes ⊆ wider ∧ Settled wider after.supply ∧ simplified.value ∈ wider ∧
        ∀ valuation, simplified.constraint.Holds valuation.parameters →
          Refines (predicate.eval valuation) (simplified.value.eval valuation) := by
  refine QueryOptimizer.simplify_refines interpretation Settled settled_habitat rfl ?_ settled present
  intro nodes ledger root current settled present application member
  obtain ⟨⟨isRule, -⟩, matched⟩ := mem_applications.mp member
  refine (callRule_step environment ledger root isRule matched).imp ?_
  intro yielded? after called
  rcases called with unchanged | ⟨node, constraint, session, rfl, rfl, step⟩
  · exact .inl unchanged
  · exact .inr ⟨node, constraint, session, rfl, rfl, step.lighter, step.settles settled present,
      fun _ => step.stands settled present⟩

end Predicate
end QueryOptimizer
