import QueryOptimizer.Proofs.Scalar.Step
import QueryOptimizer.Proofs.Simplification.Provenance

/-!
The rules for scalar expressions preserve what expressions evaluate to, under the constraints that they
record.
-/
namespace QueryOptimizer

namespace ScalarFunction

/-- Folding a function of one operand gives the value that the function has. -/
theorem apply_of_evalUnary? {function : ScalarFunction} {operand result : Literal}
    (folded : function.evalUnary? operand = some result) {value : Value}
    (applied : function.apply [.ofLiteral operand] = some value) : value = .ofLiteral result := by
  cases operand with
  | bool | string => cases folded
  | null =>
    cases function with
    | neg | abs =>
      cases folded
      cases applied
      rfl
    | add | sub | mul | record | field => cases folded
  | int operand =>
    cases function with
    | neg | abs =>
      obtain ⟨word, fits, rfl⟩ := Option.map_eq_some_iff.mp folded
      obtain ⟨other, same, rfl⟩ := Option.map_eq_some_iff.mp applied
      obtain rfl : word = other := Option.some.inj (fits.symm.trans same)
      rfl
    | add | sub | mul | record | field => cases folded

theorem apply_of_evalBinary? {function : ScalarFunction} {left right result : Literal}
    (folded : function.evalBinary? left right = some result) {value : Value}
    (applied : function.apply [.ofLiteral left, .ofLiteral right] = some value) :
    value = .ofLiteral result := by
  cases function with
  | neg | abs | record | field =>
    cases left with
    | null => cases right <;> cases folded
    | int => cases right <;> cases folded
    | bool | string => cases folded
  | add | sub | mul =>
    cases left with
    | bool | string => cases folded
    | null =>
      cases right with
      | bool | string => cases folded
      | null | int =>
        cases folded
        cases applied
        rfl
    | int left =>
      cases right with
      | bool | string => cases folded
      | null =>
        cases folded
        cases applied
        rfl
      | int right =>
        obtain ⟨word, fits, rfl⟩ := Option.map_eq_some_iff.mp folded
        obtain ⟨other, same, rfl⟩ := Option.map_eq_some_iff.mp applied
        obtain rfl : word = other := Option.some.inj (fits.symm.trans same)
        rfl

end ScalarFunction

/-- Arithmetic that leaves integers as they are leaves nulls as they are too. -/
theorem Value.binary_right {exact : Int → Int → Int} {neutral : Int64} {kept value : Value}
    (identity : ∀ operand, exact operand neutral.toInt = operand)
    (applied : kept.binary exact (.int neutral) = some value) : kept = value := by
  cases kept with
  | null =>
    cases applied
    rfl
  | int operand =>
    rw [binary, identity, ofInt?, Integer64.ofInt?_toInt] at applied
    cases applied
    rfl
  | bool | string | record => cases applied

theorem Value.binary_left {exact : Int → Int → Int} {neutral : Int64} {kept value : Value}
    (identity : ∀ operand, exact neutral.toInt operand = operand)
    (applied : (Value.int neutral).binary exact kept = some value) : kept = value := by
  cases kept with
  | null =>
    cases applied
    rfl
  | int operand =>
    rw [binary, identity, ofInt?, Integer64.ofInt?_toInt] at applied
    cases applied
    rfl
  | bool | string | record => cases applied

namespace Scalar

theorem RightIdentity.apply {function : ScalarFunction} {neutral : Int64}
    (identity : RightIdentity function neutral) {kept value : Value}
    (applied : function.apply [kept, .int neutral] = some value) : kept = value := by
  cases function with
  | add =>
    obtain rfl : neutral = 0 := identity
    exact Value.binary_right Int.add_zero applied
  | sub =>
    obtain rfl : neutral = 0 := identity
    exact Value.binary_right Int.sub_zero applied
  | mul =>
    obtain rfl : neutral = 1 := identity
    exact Value.binary_right Int.mul_one applied
  | neg | abs | record | field => cases identity

theorem LeftIdentity.apply {function : ScalarFunction} {neutral : Int64}
    (identity : LeftIdentity function neutral) {kept value : Value}
    (applied : function.apply [.int neutral, kept] = some value) : kept = value := by
  cases function with
  | add =>
    obtain rfl : neutral = 0 := identity
    exact Value.binary_left Int.zero_add applied
  | mul =>
    obtain rfl : neutral = 1 := identity
    exact Value.binary_left Int.one_mul applied
  | neg | abs | sub | record | field => cases identity

def interpretation : Interpretation Scalar Value where
  eval := eval
  apply := apply
  eval_eq := eval_eq
  apply_copyOver _ node _ _ _ := by cases node <;> rfl

variable {environment : Environment} {constraints : Table Scalar Constraint} {supply later : Supply}
variable {current node : Scalar} {constraint : Constraint} {meaning : Valuation → Option Value}

/-- A constant has the value of the position that it stands for. -/
theorem value_of_literal {id : NodeId} {literal : Literal}
    (stands : StandsFor interpretation constraints meaning (.literal id literal)) {valuation : Valuation}
    (holds : (constraints.recorded (.literal id literal)).Holds valuation.parameters) {value : Value}
    (found : meaning valuation = some value) : value = .ofLiteral literal := by
  cases stands with
  | intro positions operands below determined =>
    obtain ⟨values, -, applied⟩ := determined valuation holds value found
    exact (Option.some.inj applied).symm

/-- The position of a call of one argument is determined by the position of the argument. -/
theorem unary_position {id : NodeId} {function : ScalarFunction} {argument : Scalar}
    (stands : StandsFor interpretation constraints meaning (.call id function [argument])) :
    ∃ inner, StandsFor interpretation constraints inner argument ∧
      ∀ valuation, (constraints.recorded (.call id function [argument])).Holds valuation.parameters →
        ∀ value, meaning valuation = some value →
          ∃ operand, inner valuation = some operand ∧ function.apply [operand] = some value := by
  cases stands with
  | intro positions operands below determined =>
    obtain ⟨position, rfl, rfl⟩ := List.map_eq_singleton_iff.mp operands
    refine ⟨position.1, below position (List.mem_singleton_self _), ?_⟩
    intro valuation holds value found
    obtain ⟨values, known, applied⟩ := determined valuation holds value found
    obtain ⟨operand, rfl, same⟩ := List.map_eq_singleton_iff.mp known.symm
    exact ⟨operand, same.symm, applied⟩

theorem binary_positions {id : NodeId} {function : ScalarFunction} {left right : Scalar}
    (stands : StandsFor interpretation constraints meaning (.call id function [left, right])) :
    ∃ first second, StandsFor interpretation constraints first left ∧
      StandsFor interpretation constraints second right ∧
      ∀ valuation, (constraints.recorded (.call id function [left, right])).Holds valuation.parameters →
        ∀ value, meaning valuation = some value →
          ∃ one other, first valuation = some one ∧ second valuation = some other ∧
            function.apply [one, other] = some value := by
  cases stands with
  | intro positions operands below determined =>
    obtain ⟨first, rest, rfl, rfl, others⟩ := List.map_eq_cons_iff.mp operands
    obtain ⟨second, rfl, rfl⟩ := List.map_eq_singleton_iff.mp others
    refine ⟨first.1, second.1, below first (by simp), below second (by simp), ?_⟩
    intro valuation holds value found
    obtain ⟨values, known, applied⟩ := determined valuation holds value found
    obtain ⟨one, more, rfl, same, known⟩ := List.map_eq_cons_iff.mp known.symm
    obtain ⟨other, rfl, alike⟩ := List.map_eq_singleton_iff.mp known
    exact ⟨one, other, same.symm, alike.symm, applied⟩

/-- The components of a record have the positions that its value is made of. -/
theorem component_position {id : NodeId} {components : List Scalar} {position : Nat} {component : Scalar}
    (stands : StandsFor interpretation constraints meaning (.call id .record components))
    (selected : components[position]? = some component) :
    ∃ inner, StandsFor interpretation constraints inner component ∧
      ∀ valuation, (constraints.recorded (.call id .record components)).Holds valuation.parameters →
        ∀ value, meaning valuation = some value →
          ∃ values, value = .record values ∧ inner valuation = values[position]? := by
  cases stands with
  | intro positions operands below determined =>
    obtain ⟨source, member, rfl⟩ : ∃ source, positions[position]? = some source ∧ source.2 = component := by
      rw [show components = positions.map Prod.snd from operands.symm, List.getElem?_map] at selected
      exact Option.map_eq_some_iff.mp selected
    refine ⟨source.1, below source (List.mem_of_getElem? member), ?_⟩
    intro valuation holds value found
    obtain ⟨values, parts, built⟩ := determined valuation holds value found
    refine ⟨values, (Option.some.inj built).symm, ?_⟩
    have part := congrArg (·[position]?) parts
    simp only [List.getElem?_map, member, Option.map_some] at part
    cases known : values[position]? with
    | none =>
      rw [known] at part
      cases part
    | some value =>
      rw [known] at part
      exact Option.some.inj part

/-- A replacement stands for whatever the replaced node stood for. -/
theorem Step.stands (step : Step environment constraints supply current node constraint later)
    (stands : StandsFor interpretation constraints meaning current) :
    StandsFor interpretation (attachConstraint constraints current node constraint) meaning node := by
  cases step with
  | @inlined symbol literal =>
    cases stands with
    | intro positions operands below determined =>
      refine .leaf rfl ?_
      intro valuation currentHolds holds value found
      obtain ⟨values, -, applied⟩ := determined valuation currentHolds value found
      have assumed := holds _ (Constraint.mem_of.mpr rfl)
      have bound : valuation.parameters.get? symbol = some literal := by
        cases literal <;> exact assumed
      have known : (valuation.parameters.get? symbol).map Value.ofLiteral = some value := applied
      rw [bound] at known
      exact known
  | selected selected carries =>
    obtain ⟨inner, recordStands, determined⟩ := unary_position stands
    obtain ⟨component, componentStands, composed⟩ := component_position recordStands selected
    refine .takesOver componentStands ?_
    intro valuation currentHolds holds value found
    obtain ⟨whole, known, applied⟩ := determined valuation currentHolds value found
    obtain ⟨values, rfl, part⟩ := composed valuation (carries.holds holds (by simp)) whole known
    exact part.trans applied
  | foldedUnary folded carries =>
    obtain ⟨inner, operandStands, determined⟩ := unary_position stands
    refine .leaf rfl ?_
    intro valuation currentHolds holds value found
    obtain ⟨operand, known, applied⟩ := determined valuation currentHolds value found
    have literal := value_of_literal operandStands (carries.holds holds (by simp)) known
    subst literal
    rw [ScalarFunction.apply_of_evalUnary? folded applied]
    rfl
  | foldedBinary folded carries =>
    obtain ⟨first, second, leftStands, rightStands, determined⟩ := binary_positions stands
    refine .leaf rfl ?_
    intro valuation currentHolds holds value found
    obtain ⟨one, other, left, right, applied⟩ := determined valuation currentHolds value found
    have leftLiteral := value_of_literal leftStands (carries.holds holds (by simp)) left
    have rightLiteral := value_of_literal rightStands (carries.holds holds (by simp)) right
    subst leftLiteral rightLiteral
    rw [ScalarFunction.apply_of_evalBinary? folded applied]
    rfl
  | rightDropped identity carries =>
    obtain ⟨first, second, keptStands, droppedStands, determined⟩ := binary_positions stands
    refine .takesOver keptStands ?_
    intro valuation currentHolds holds value found
    obtain ⟨one, other, kept, dropped, applied⟩ := determined valuation currentHolds value found
    have literal := value_of_literal droppedStands (carries.holds holds (by simp)) dropped
    subst literal
    rw [kept, identity.apply applied]
  | leftDropped identity carries =>
    obtain ⟨first, second, droppedStands, keptStands, determined⟩ := binary_positions stands
    refine .takesOver keptStands ?_
    intro valuation currentHolds holds value found
    obtain ⟨other, one, dropped, kept, applied⟩ := determined valuation currentHolds value found
    have literal := value_of_literal droppedStands (carries.holds holds (by simp)) dropped
    subst literal
    rw [kept, identity.apply applied]

/-- Simplification of a scalar with the default rules preserves its value: wherever the scalar has one,
the result has the same, if the returned constraint holds. -/
theorem simplify_refines (environment : Environment) {scalar : Scalar} {nodes : Set Scalar}
    (session : Session Unit) (arena : Arena nodes session.supply) (present : scalar ∈ nodes) :
    Returns (simplify (setting environment ⟨allRules⟩) scalar) session fun simplified after =>
      ∃ wider, nodes ⊆ wider ∧ Arena wider after.supply ∧ simplified.value ∈ wider ∧
        ∀ valuation, simplified.constraint.Holds valuation.parameters →
          Refines (scalar.eval valuation) (simplified.value.eval valuation) := by
  refine QueryOptimizer.simplify_refines interpretation Arena ?_ rfl ?_ arena present
  · refine ⟨fun _ _ arena => arena, fun _ _ _ arena more => arena.mono more, ?_⟩
    intro nodes supply node mapped arena _ size below
    refine arena.insert (LawfulTree.identity_copyOver _ _ _) ?_
    rwa [LawfulTree.children_copyOver _ _ _ size]
  · intro nodes ledger root current arena present application member
    refine (callRule_step environment (List.Subset.refl _) ledger root current member).imp ?_
    intro yielded? after called
    rcases called with unchanged | ⟨node, constraint, session, rfl, rfl, step⟩
    · exact .inl unchanged
    · exact .inr ⟨node, constraint, session, rfl, rfl, step.lighter, step.joins arena present,
        fun _ => step.stands⟩

end Scalar
end QueryOptimizer
