import QueryOptimizer.Proofs.Scalar.Form
import QueryOptimizer.Proofs.Simplification.Idempotence

/-!
What the rules for scalar expressions promise: they yield proper descendants of the node and new nodes, and
what they yield depends, but for identities, on nothing but the node and the environment.
-/
namespace QueryOptimizer.Scalar

/-- The nodes form an arena in the session. -/
abbrev Settled (nodes : Set Scalar) (session : Session Unit) : Prop :=
  Arena nodes session.supply

section Step
variable {environment : Environment} {constraints : Table Scalar Constraint} {supply later : Supply}
variable {current node : Scalar} {constraint : Constraint}

/-- Every step leads to a descendant, or to a new leaf. -/
theorem Step.derived (step : Step environment constraints supply current node constraint later) :
    Derived current supply node := by
  have new (id : NodeId) (value : Literal) (named : id = supply.draw.1) :
      Derived current supply (.literal id value) :=
    .inr ⟨named ▸ Nat.le_refl _, fun _ member => nomatch member⟩
  cases step with
  | inlined | foldedUnary | foldedBinary => exact new _ _ rfl
  | selected found =>
    exact .inl ⟨_, List.mem_singleton_self _,
      Tree.child_mem_postOrder (Tree.root_mem_postOrder _) (List.mem_of_getElem? found)⟩
  | rightDropped => exact .inl (Tree.below_of_child (List.mem_cons_self ..))
  | leftDropped => exact .inl (Tree.below_of_child (List.mem_cons_of_mem _ (List.mem_singleton_self _)))

end Step

section Replies
variable (environment : Environment)

theorem inlineConstantParameter_replies :
    Replies Settled environment bare inlineConstantParameter fun form _ =>
      (inlined? environment form).map (literal ⟨0⟩) := by
  intro nodes call session called
  dsimp only [inlineConstantParameter]
  rw [inlined?_bare, called.situated]
  cases call.current with
  | parameter id symbol =>
    dsimp only [inlined?]
    cases environment.constants.contains symbol with
    | false => exact .pure ⟨rfl, rfl⟩
    | true =>
      cases environment.parameters.get? symbol with
      | none => exact .pure ⟨rfl, rfl⟩
      | some value => exact .bind (.of_eq rfl (.pure ⟨rfl, rfl⟩))
  | literal | column | call => exact .pure ⟨rfl, rfl⟩

theorem composeFieldOverRecord_replies :
    Replies Settled environment bare composeFieldOverRecord fun form _ => selected? form := by
  intro nodes call session called
  obtain ⟨isField, child, single, below⟩ := Pattern.mem_allMatches_exactly_one.mp called.matched
  obtain ⟨isRecord, bound⟩ := Pattern.mem_allMatches_operator.mp below
  have found : call.bindings.get? "record" = some child := by
    rw [bound]
    exact Bindings.get?_bind_same _ rfl
  obtain ⟨id, position, shape⟩ := eq_field_of_kind isField single
  have selects : selected? call.current = child.children[position]? := by
    rw [shape]
    exact if_pos isRecord
  dsimp only [composeFieldOverRecord]
  rw [selected?_bare, selects, shape, Call.get_of_bound found]
  simp only [pure_bind]
  cases child.children[position]? with
  | none => exact .pure ⟨rfl, rfl⟩
  | some component => exact .pure ⟨rfl, rfl⟩

theorem foldUnaryLiteral_replies :
    Replies Settled environment bare foldUnaryLiteral fun form _ => (folded? form).map (literal ⟨0⟩) := by
  intro nodes call session called
  obtain ⟨isUnary, -⟩ := Pattern.mem_allMatches_filter.mp called.matched
  obtain ⟨id, function, operandId, operand, shape⟩ := eq_call_of_isUnaryOverLiteral isUnary
  dsimp only [foldUnaryLiteral]
  rw [folded?_bare, shape]
  dsimp only [folded?, asLiteral?, Option.bind_some]
  cases function.evalUnary? operand with
  | none => exact .pure ⟨rfl, rfl⟩
  | some value => exact .bind (.of_eq rfl (.pure ⟨rfl, rfl⟩))

theorem foldBinaryLiterals_replies :
    Replies Settled environment bare foldBinaryLiterals fun form _ => (folded? form).map (literal ⟨0⟩) := by
  intro nodes call session called
  obtain ⟨isBinary, -⟩ := Pattern.mem_allMatches_filter.mp called.matched
  obtain ⟨id, function, leftId, left, rightId, right, shape⟩ := eq_call_of_isArithmeticOverLiterals isBinary
  dsimp only [foldBinaryLiterals]
  rw [folded?_bare, shape]
  dsimp only [folded?, asLiteral?, Option.bind_eq_bind, Option.bind_some]
  cases function.evalBinary? left right with
  | none => exact .pure ⟨rfl, rfl⟩
  | some value => exact .bind (.of_eq rfl (.pure ⟨rfl, rfl⟩))

theorem eliminateArithmeticIdentity_replies :
    Replies Settled environment bare eliminateArithmeticIdentity fun form _ =>
      (keptAndDropped? form).map Prod.fst := by
  intro nodes call session _
  dsimp only [eliminateArithmeticIdentity]
  rw [keptAndDropped?_bare]
  cases keptAndDropped? call.current with
  | none => exact .pure ⟨rfl, rfl⟩
  | some operands => exact .pure ⟨rfl, rfl⟩

theorem replies_of_mem_allRules {rule : ScalarRule} (member : rule ∈ allRules) :
    ∃ answer, Replies Settled environment bare rule answer := by
  simp only [allRules, List.mem_cons, List.not_mem_nil, or_false] at member
  rcases member with rfl | rfl | rfl | rfl | rfl
  · exact ⟨_, inlineConstantParameter_replies environment⟩
  · exact ⟨_, composeFieldOverRecord_replies environment⟩
  · exact ⟨_, foldUnaryLiteral_replies environment⟩
  · exact ⟨_, foldBinaryLiterals_replies environment⟩
  · exact ⟨_, eliminateArithmeticIdentity_replies environment⟩

end Replies

section Promises
variable (environment : Environment)

theorem allRules_yieldExisting : ∀ rule ∈ allRules, YieldsExisting Settled environment rule := by
  intro rule member
  refine (isStep_of_mem_allRules environment member).yieldsExisting ?_ ?_
  · exact fun _ _ _ arena more => arena.mono more
  · intro nodes session constraints current node constraint after arena present step
    exact ⟨_, Set.subset_insert _ _, step.joins arena present, Set.mem_insert _ _⟩

theorem allRules_descend : ∀ rule ∈ allRules, Descending Settled environment rule :=
  fun _ member => (isStep_of_mem_allRules environment member).descending rfl fun _ _ _ _ _ _ step => step.derived

theorem allRules_honest : ∀ rule ∈ allRules, Honest Settled environment rule :=
  fun _ member => (isStep_of_mem_allRules environment member).honest fun _ _ _ _ _ _ step => step.derived

theorem allRules_replace : ∀ rule ∈ allRules, Replacing Settled environment rule :=
  fun rule member => (allRules_descend environment rule member).replacing arena_habitat

theorem allRules_contextFree : ∀ rule ∈ allRules, ContextFree Settled environment rule := by
  intro rule member
  obtain ⟨answer, replies⟩ := replies_of_mem_allRules environment member
  exact replies.alike.contextFree (allRules_replace environment rule member)

theorem allRules_answer : ∀ rule ∈ allRules, ∃ answer, AnswersBy Settled environment bare rule answer := by
  intro rule member
  obtain ⟨answer, replies⟩ := replies_of_mem_allRules environment member
  exact ⟨answer, replies.answersBy (allRules_replace environment rule member)⟩

/-- All nodes of the scalar rest. -/
def Settles (scalar : Scalar) : Prop :=
  ∀ inner ∈ Tree.postOrder scalar, Rests (setting environment ⟨allRules⟩) (InSession Settled) inner

/-- Simplification returns a scalar that is settled, which is the same node if and only if that node
was. -/
theorem simplify_settled {nodes : Set Scalar} {scalar : Scalar} {session : Session Unit}
    (arena : Settled nodes session) (present : scalar ∈ nodes) :
    Returns (simplify (setting environment ⟨allRules⟩) scalar) session fun simplified after =>
      (∃ wider, nodes ⊆ wider ∧ Settled wider after ∧ simplified.value ∈ wider) ∧
        Settles environment simplified.value ∧
        (sameNode scalar simplified.value = true ↔ Settles environment scalar) := by
  obtain ⟨simplified, after, found, -⟩ := (simplify_lightened environment scalar session).returned
  have existing := allRules_yieldExisting environment
  have contextFree := allRules_contextFree environment
  have leadsDown : ∀ rule ∈ allRules, LeadsDown Settled environment rule ∅ Set.univ :=
    fun rule member => (allRules_honest environment rule member).leadsDown
  obtain ⟨wider, included, settles, known, rests⟩ :=
    (simplify_settles arena_habitat existing contextFree leadsDown arena present).at_ok found
  exact .of_eq found ⟨⟨wider, included, settles, known⟩, rests,
    simplify_unchanged_iff arena_habitat existing contextFree leadsDown (allRules_replace environment) arena
      present found⟩

end Promises
end QueryOptimizer.Scalar
