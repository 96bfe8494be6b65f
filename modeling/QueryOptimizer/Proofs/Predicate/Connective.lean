import QueryOptimizer.Proofs.Predicate.Step
import QueryOptimizer.Proofs.Simplification.Provenance

/-!
Connectives under three-valued logic: what flattening, dropping and deciding operands does to their
value, and to the positions that their operands stand for.
-/
namespace QueryOptimizer

namespace Truth

@[simp] theorem not_not (truth : Truth) : truth.not.not = truth := by
  cases truth <;> rfl

/-- The value of a connective on the values of its operands. -/
def connect : PredicateKind → List Truth → Truth
  | .or => disjunction
  | _ => conjunction

/-- A connective on two values. -/
def combine : PredicateKind → Truth → Truth → Truth
  | .or => or
  | _ => and

theorem connect_cons (kind : PredicateKind) (truth : Truth) (rest : List Truth) :
    connect kind (truth :: rest) = combine kind truth (connect kind rest) := by
  cases kind <;> rfl

theorem combine_assoc (kind : PredicateKind) (one two three : Truth) :
    combine kind (combine kind one two) three = combine kind one (combine kind two three) := by
  cases kind <;> cases one <;> cases two <;> cases three <;> rfl

theorem combine_nil (kind : PredicateKind) (truth : Truth) : combine kind (connect kind []) truth = truth := by
  cases kind <;> cases truth <;> rfl

@[simp] theorem connect_singleton (kind : PredicateKind) (truth : Truth) : connect kind [truth] = truth := by
  cases kind <;> cases truth <;> rfl

theorem connect_append (kind : PredicateKind) (front back : List Truth) :
    connect kind (front ++ back) = combine kind (connect kind front) (connect kind back) := by
  induction front with
  | nil => rw [List.nil_append, combine_nil]
  | cons truth rest ih => rw [List.cons_append, connect_cons, ih, connect_cons, combine_assoc]

/-- An absorbing operand decides the connective. -/
theorem connect_of_absorbing {kind : PredicateKind} {neutral absorbing : Truth}
    (constants : Predicate.identityAndAbsorbing? kind = some (neutral, absorbing)) {truths : List Truth}
    (member : absorbing ∈ truths) : connect kind truths = absorbing := by
  have decides (truth : Truth) : combine kind absorbing truth = absorbing ∧
      combine kind truth absorbing = absorbing := by
    cases kind <;> cases constants <;> cases truth <;> exact ⟨rfl, rfl⟩
  induction truths with
  | nil => cases member
  | cons truth rest ih =>
    rw [connect_cons]
    rcases List.mem_cons.mp member with rfl | later
    · exact (decides _).1
    · rw [ih later]
      exact (decides truth).2

theorem connect_nil {kind : PredicateKind} {neutral absorbing : Truth}
    (constants : Predicate.identityAndAbsorbing? kind = some (neutral, absorbing)) :
    connect kind [] = neutral := by
  cases kind <;> cases constants <;> rfl

/-- The negations of some values are connected to the negation of what the values are connected to. -/
theorem connect_not {kind dual : PredicateKind} (isDual : Predicate.dual? kind = some dual) (truths : List Truth) :
    connect dual (truths.map Truth.not) = (connect kind truths).not := by
  have combined (one other : Truth) : combine dual one.not other.not = (combine kind one other).not := by
    cases kind <;> cases isDual <;> cases one <;> cases other <;> rfl
  induction truths with
  | nil => cases kind <;> cases isDual <;> rfl
  | cons truth rest ih => rw [List.map_cons, connect_cons, ih, combined, connect_cons]

end Truth

/-- A comparison fails where its negation holds, and is unknown where its negation is. -/
theorem Comparison.eval?_negate (comparison : Comparison) (left right : Literal) :
    comparison.negate.eval? left right = (comparison.eval? left right).map Truth.not := by
  have decided (ordering : Ordering) : Truth.ofBool (comparison.negate.holdsFor ordering) =
      (Truth.ofBool (comparison.holdsFor ordering)).not := by
    cases comparison <;> cases ordering <;> rfl
  unfold eval?
  split
  · rfl
  · rw [Option.map_map]
    congr 1
    funext ordering
    exact decided ordering

theorem Comparison.apply_negate (comparison : Comparison) (left right : Value) :
    comparison.negate.apply left right = (comparison.apply left right).map Truth.not := by
  unfold apply
  split
  · rfl
  · cases left.literal? with
    | none => rfl
    | some one =>
      cases right.literal? with
      | none => rfl
      | some other => exact comparison.eval?_negate one other

theorem Comparison.apply_ofLiteral (comparison : Comparison) (left right : Literal) :
    comparison.apply (.ofLiteral left) (.ofLiteral right) = comparison.eval? left right := by
  unfold apply
  rw [Value.isNull_ofLiteral, Value.isNull_ofLiteral, Value.literal?_ofLiteral, Value.literal?_ofLiteral]
  split
  · rename_i null
    rw [eval?, if_pos null]
  · rfl

namespace Predicate

def interpretation : Interpretation Predicate Truth where
  eval := eval
  apply := apply
  eval_eq := eval_eq
  apply_copyOver _ node _ _ values := by
    cases node with
    | not => cases values with
      | nil => rfl
      | cons _ rest => cases rest <;> rfl
    | constant | and | or | compare | isNull => rfl

theorem apply_connective (valuation : Valuation) (kind : PredicateKind) (id : NodeId)
    (operands : List Predicate) (truths : List Truth) :
    apply valuation (connective kind id operands) truths = some (Truth.connect kind truths) := by
  cases kind <;> rfl

variable {constraints : Table Predicate Constraint} {meaning : Valuation → Option Truth}

/-- What some positions are, each under its own condition: together they have the value of one. -/
structure Expands (constraints : Table Predicate Constraint) (kind : PredicateKind)
    (needed : Valuation → Prop) (meaning : Valuation → Option Truth) (operands : List Predicate)
    (positions : List ((Valuation → Option Truth) × Predicate)) : Prop where
  operands : positions.map Prod.snd = operands
  below : ∀ position ∈ positions, StandsFor interpretation constraints position.1 position.2
  determined : ∀ valuation, needed valuation → ∀ truth, meaning valuation = some truth →
    ∃ truths, positions.map (fun position => position.1 valuation) = truths.map some ∧
      Truth.connect kind truths = truth

/-- Operands that are each replaced by operands of the same value together leave a connective as it
is. -/
theorem expands_all (constraints : Table Predicate Constraint) (kind : PredicateKind)
    (needed : Predicate → Valuation → Prop) (expand : Predicate → List Predicate)
    (positions : List ((Valuation → Option Truth) × Predicate))
    (each : ∀ position ∈ positions,
      ∃ inner, Expands constraints kind (needed position.2) position.1 (expand position.2) inner) :
    ∃ expanded : List ((Valuation → Option Truth) × Predicate),
      expanded.map Prod.snd = (positions.map Prod.snd).flatMap expand ∧
      (∀ position ∈ expanded, StandsFor interpretation constraints position.1 position.2) ∧
      ∀ valuation, (∀ position ∈ positions, needed position.2 valuation) →
        ∀ truths, positions.map (fun position => position.1 valuation) = truths.map some →
          ∃ others, expanded.map (fun position => position.1 valuation) = others.map some ∧
            Truth.connect kind others = Truth.connect kind truths := by
  induction positions with
  | nil =>
    refine ⟨[], rfl, by simp, ?_⟩
    intro valuation _ truths known
    cases truths with
    | nil => exact ⟨[], rfl, rfl⟩
    | cons => cases known
  | cons position rest ih =>
    obtain ⟨inner, expands⟩ := each position (by simp)
    obtain ⟨expanded, operands, below, determined⟩ := ih fun other member => each other (by simp [member])
    refine ⟨inner ++ expanded, ?_, ?_, ?_⟩
    · rw [List.map_append, expands.operands, operands]
      rfl
    · intro other member
      rcases List.mem_append.mp member with first | later
      · exact expands.below other first
      · exact below other later
    · intro valuation needs truths known
      cases truths with
      | nil => cases known
      | cons truth truths =>
        obtain ⟨first, others⟩ := List.cons_eq_cons.mp known
        obtain ⟨front, frontKnown, frontSame⟩ :=
          expands.determined valuation (needs position (by simp)) truth first
        obtain ⟨back, backKnown, backSame⟩ := determined valuation
          (fun other member => needs other (by simp [member])) truths others
        refine ⟨front ++ back, ?_, ?_⟩
        · rw [List.map_append, List.map_append, frontKnown, backKnown]
        · rw [Truth.connect_append, frontSame, backSame, Truth.connect_cons]

/-- The positions of a connective's operands determine its value. -/
theorem connective_positions {kind : PredicateKind} {id : NodeId} {operands : List Predicate}
    (stands : StandsFor interpretation constraints meaning (connective kind id operands)) :
    ∃ positions : List ((Valuation → Option Truth) × Predicate), positions.map Prod.snd = operands ∧
      (∀ position ∈ positions, StandsFor interpretation constraints position.1 position.2) ∧
      ∀ valuation, (constraints.recorded (connective kind id operands)).Holds valuation.parameters →
        ∀ truth, meaning valuation = some truth →
          ∃ truths, positions.map (fun position => position.1 valuation) = truths.map some ∧
            Truth.connect kind truths = truth := by
  cases stands with
  | intro positions children below determined =>
    refine ⟨positions, children.trans (children_connective kind id operands), below, ?_⟩
    intro valuation holds truth found
    obtain ⟨truths, known, applied⟩ := determined valuation holds truth found
    refine ⟨truths, known, ?_⟩
    exact Option.some.inj ((apply_connective valuation kind id operands truths).symm.trans applied)

/-- The position of a negation is determined by the position of its operand. -/
theorem not_position {id : NodeId} {operand : Predicate}
    (stands : StandsFor interpretation constraints meaning (.not id operand)) :
    ∃ inner, StandsFor interpretation constraints inner operand ∧
      ∀ valuation, (constraints.recorded (.not id operand)).Holds valuation.parameters →
        ∀ truth, meaning valuation = some truth → inner valuation = some truth.not := by
  cases stands with
  | intro positions operands below determined =>
    obtain ⟨position, rfl, rfl⟩ := List.map_eq_singleton_iff.mp operands
    refine ⟨position.1, below position (List.mem_singleton_self _), ?_⟩
    intro valuation holds truth found
    obtain ⟨truths, known, applied⟩ := determined valuation holds truth found
    obtain ⟨inner, rfl, same⟩ := List.map_eq_singleton_iff.mp known.symm
    cases applied
    rw [Truth.not_not]
    exact same.symm

/-- A predicate without operands has a position whose value it determines on its own. -/
theorem leaf_position {leaf : Predicate} (stands : StandsFor interpretation constraints meaning leaf)
    (single : leaf.children = []) {valuation : Valuation}
    (holds : (constraints.recorded leaf).Holds valuation.parameters) {truth : Truth}
    (found : meaning valuation = some truth) : apply valuation leaf [] = some truth := by
  cases stands with
  | intro positions operands below determined =>
    obtain rfl : positions = [] := List.map_eq_nil_iff.mp (operands.trans single)
    obtain ⟨truths, known, applied⟩ := determined valuation holds truth found
    obtain rfl : truths = [] := List.map_eq_nil_iff.mp known.symm
    exact applied

end Predicate
end QueryOptimizer
