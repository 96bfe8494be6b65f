import QueryOptimizer.Proofs.Predicate.Form
import QueryOptimizer.Proofs.Predicate.NormalForm
import QueryOptimizer.Proofs.Predicate.Soundness
import QueryOptimizer.Proofs.Scalar.Simplest

/-!
What the rules for predicates promise. Scalars are simplified inside of a predicate, which depends on
nothing but the scalars, because simplification leads each scalar to its simplest form.
-/
namespace QueryOptimizer

theorem Habitat.ofSupply {ν ω σ : Type} [Tree ν ω] {settled : Set ν → Supply → Prop} (habitat : Habitat settled) :
    SessionHabitat fun (nodes : Set ν) (session : Session σ) => settled nodes session.supply :=
  ⟨fun nodes session => habitat.arena nodes session.supply, fun nodes session => habitat.copied nodes session.supply⟩

namespace Predicate

/-- Predicates and the scalars that they are about can exist side by side in the session. -/
abbrev SettledIn (nodes : Set Predicate) (session : Session Unit) : Prop :=
  Settled nodes session.supply

section Step
variable {environment : Environment} {constraints : Table Predicate Constraint} {supply later : Supply}
variable {current node : Predicate} {constraint : Constraint}

theorem below_connective {kind : PredicateKind} {id : NodeId} {operands : List Predicate} {operand : Predicate}
    (member : operand ∈ operands) : Tree.Below (connective kind id operands) operand :=
  Tree.below_of_child (by rwa [← children_connective kind id operands] at member)

/-- Every step leads to a descendant, or to a new node over descendants. -/
theorem Step.derived (step : Step environment constraints supply current node constraint later) :
    Derived current supply node := by
  have leaf {node : Predicate} (named : supply.allocated ≤ node.identity.index) (none : node.children = []) :
      Derived current supply node :=
    .inr ⟨named, fun child member => nomatch (none ▸ member : child ∈ [])⟩
  cases step with
  | parameterDecided | comparisonFolded | nullTestFolded | constantNegated | comparisonNegated | emptied =>
    exact leaf (Nat.le_refl _) rfl
  | comparisonSimplified foundLeft foundRight =>
    have first := (Scalar.lightened_of_simplify foundLeft).1
    have second := (Scalar.lightened_of_simplify foundRight).1
    exact leaf (Nat.le_trans first second) rfl
  | nullTestSimplified found => exact leaf (Scalar.lightened_of_simplify found).1 rfl
  | doublyNegated =>
    exact .inl ⟨_, List.mem_singleton_self _, Tree.child_mem_postOrder (Tree.root_mem_postOrder _)
      (List.mem_singleton_self _)⟩
  | flattened =>
    refine .inr ⟨by simp [QueryOptimizer.identity, Supply.draw], ?_⟩
    intro child member
    rw [show Tree.children (connective _ _ _) = _ from children_connective _ _ _] at member
    rcases of_mem_flattened member with direct | ⟨operand, present, below⟩
    · exact below_connective direct
    · exact (below_connective present).trans_mem (Tree.child_mem_postOrder (Tree.root_mem_postOrder _) below)
  | absorbed _ member => exact .inl (below_connective member)
  | collapsed _ single =>
    exact .inl (below_connective (List.mem_of_mem_filter (single ▸ List.mem_singleton_self _)))
  | reduced =>
    refine .inr ⟨by simp [QueryOptimizer.identity, Supply.draw], ?_⟩
    intro child member
    rw [show Tree.children (connective _ _ _) = _ from children_connective _ _ _] at member
    exact below_connective (List.mem_of_mem_filter member)

/-- What replaces a negated connective can exist beside the nodes there are and their scalars. -/
theorem PushesDown.settles (pushes : PushesDown constraints supply current node constraint later)
    {nodes : Set Predicate} (settles : Settled nodes supply) (present : current ∈ nodes) :
    ∃ wider, nodes ⊆ wider ∧ Settled wider later ∧ node ∈ wider := by
  obtain ⟨wider, included, arena, joined, bare⟩ := pushes.joins settles.arena present
  have more : supply.allocated ≤ later.allocated := by
    cases pushes with
    | intro => exact Nat.le_succ_of_le (Nat.le_add_right _ _)
  refine ⟨wider, included, ⟨arena, (settles.scalars.mono more).restrict ?_ (scalarNodes_closed _)⟩, joined⟩
  rintro scalar ⟨owner, known, root, about, within⟩
  rcases bare owner known with old | none
  · exact ⟨owner, old, root, about, within⟩
  · exact nomatch (none ▸ about : root ∈ [])

end Step

/-! Scalars inside of a predicate -/

/-- The comparison or null test over other scalars, under an identity. -/
inductive RestatedAs (id : NodeId) : Predicate → List Scalar → Predicate → Prop where
  | compare : RestatedAs id (.compare oldId comparison left right) [newLeft, newRight]
      (.compare id comparison newLeft newRight)
  | isNull : RestatedAs id (.isNull oldId operand) [newOperand] (.isNull id newOperand)

theorem withScalars_restates {predicate : Predicate} (about : predicate.scalars ≠ []) {values : List Scalar}
    (size : predicate.scalars.length = values.length) (session : Session Unit) :
    Returns (predicate.withScalars values : RuleM Unit Predicate) session fun node after =>
      RestatedAs session.supply.draw.1 predicate values node ∧ after = ⟨session.supply.draw.2, ()⟩ := by
  cases predicate with
  | compare id comparison left right =>
    obtain ⟨newLeft, newRight, rfl⟩ := List.length_eq_two.mp size.symm
    exact .of_eq rfl ⟨.compare, rfl⟩
  | isNull id operand =>
    obtain ⟨newOperand, rfl⟩ := List.length_eq_one_iff.mp size.symm
    exact .of_eq rfl ⟨.isNull, rfl⟩
  | constant | and | or | not => exact absurd rfl about

section Restated
variable {id : NodeId} {current node : Predicate} {values : List Scalar}

theorem RestatedAs.scalars (restated : RestatedAs id current values node) : node.scalars = values := by
  cases restated <;> rfl

theorem RestatedAs.children (restated : RestatedAs id current values node) : node.children = [] := by
  cases restated <;> rfl

theorem RestatedAs.identity (restated : RestatedAs id current values node) : node.identity = id := by
  cases restated <;> rfl

theorem RestatedAs.weight (restated : RestatedAs id current values node) :
    node.weight + totalOf Scalar.weight current.scalars = current.weight + totalOf Scalar.weight values := by
  cases restated <;> simp only [Predicate.weight, Predicate.scalars, totalOf] <;> omega

end Restated

/-- Scalars simplified one after the other come to their simplest forms. -/
theorem simplifyScalars_simplest {environment : Environment}
    {scalarRules : RuleSet Scalar ScalarKind Scalar.Action}
    (sameScalarRules : ∀ rule, rule ∈ scalarRules.rules ↔ rule ∈ Scalar.allRules)
    {nodes : Set Scalar} {scalars : List Scalar} {session : Session Unit}
    (arena : Scalar.Settled nodes session) (present : ∀ scalar ∈ scalars, scalar ∈ nodes) :
    Returns (scalars.mapM (simplify (Scalar.setting environment scalarRules))) session fun simplified after =>
      session.supply.allocated ≤ after.supply.allocated ∧
      ∃ wider, nodes ⊆ wider ∧ Scalar.Settled wider after ∧
        List.Forall₂ (fun scalar value => value ∈ wider ∧ Throughout (Scalar.Plain environment) value ∧
          value.simplest environment = scalar.simplest environment ∧ Lightened Scalar.weight scalar value)
          scalars (simplified.map Constrained.value) := by
  let fits (nodes : Set Scalar) (later : Session Unit) : Prop :=
    Scalar.Settled nodes later ∧ session.supply.allocated ≤ later.supply.allocated ∧ ∀ scalar ∈ scalars, scalar ∈ nodes
  let becomes (nodes : Set Scalar) (scalar : Scalar) (simplified : Constrained Scalar) : Prop :=
    simplified.value ∈ nodes ∧ Throughout (Scalar.Plain environment) simplified.value ∧
      simplified.value.simplest environment = scalar.simplest environment ∧
      Lightened Scalar.weight scalar simplified.value
  refine (Ends.mapM fits becomes ?_ scalars ?_ ⟨arena, Nat.le_refl _, present⟩).imp ?_
  · rintro nodes wider scalar simplified included ⟨known, rest⟩
    exact ⟨included known, rest⟩
  · rintro scalar member nodes later ⟨arena, more, present⟩
    refine ((Scalar.simplify_simplest environment sameScalarRules arena (present scalar member)).and
      (Scalar.simplify_lightened_of_subset environment (fun _ => (sameScalarRules _).mp) scalar later)).mono ?_
      fun _ _ stopped => stopped.1
    rintro simplified after ⟨⟨wider, included, settles, known, plain, form⟩, drawn, lightened⟩
    exact ⟨wider, included, ⟨settles, Nat.le_trans more drawn, fun other member => included (present other member)⟩,
      known, plain, (Scalar.simplest_of_plain plain).trans form, lightened⟩
  · rintro simplified after ⟨wider, included, ⟨settles, more, -⟩, each⟩
    exact ⟨more, wider, included, settles, List.forall₂_map_right_iff.mpr each⟩

/-- The comparison or null test of the simplest forms of its scalars. -/
def overSimplest (environment : Environment) : Predicate → Predicate
  | compare _ comparison left right => compare ⟨0⟩ comparison (left.simplest environment) (right.simplest environment)
  | isNull _ operand => isNull ⟨0⟩ (operand.simplest environment)
  | predicate => predicate

theorem RestatedAs.bare {environment : Environment} {id : NodeId} {current node : Predicate} {values : List Scalar}
    (restated : RestatedAs id current values node)
    (forms : values.map Scalar.bare = current.scalars.map (Scalar.simplest environment)) :
    node.bare = overSimplest environment current.bare := by
  cases restated with
  | compare =>
    obtain ⟨left, rest⟩ := List.cons_eq_cons.mp forms
    simp only [Predicate.bare, overSimplest, Scalar.simplest_bare, left, List.singleton_inj.mp rest]
  | isNull => simp only [Predicate.bare, overSimplest, Scalar.simplest_bare, List.singleton_inj.mp forms]

/-- A predicate about scalars agrees with that over their simplest forms if and only if they are in these. -/
theorem agrees_overSimplest_iff {environment : Environment} {predicate : Predicate} (about : predicate.scalars ≠ []) :
    predicate.bare.agrees (overSimplest environment predicate.bare) = true ↔
      ∀ scalar ∈ predicate.scalars, scalar.simplest environment = scalar.bare := by
  cases predicate with
  | compare id comparison left right =>
    simp [bare, overSimplest, agrees, scalars, Scalar.simplest_bare, Scalar.agrees_iff_bare_eq, Scalar.bare_bare,
      Scalar.bare_simplest, @eq_comm _ left.bare, @eq_comm _ right.bare]
  | isNull id operand =>
    simp [bare, overSimplest, agrees, scalars, Scalar.simplest_bare, Scalar.agrees_iff_bare_eq, Scalar.bare_bare,
      Scalar.bare_simplest, @eq_comm _ operand.bare]
  | constant | and | or | not => exact absurd rfl about

theorem all_sameNode_iff {ν : Type} [Identified ν] {unchanged : ν → Prop} {nodes values : List ν}
    (each : List.Forall₂ (fun node value => sameNode node value = true ↔ unchanged node) nodes values) :
    ((nodes.zip values).all fun pair => sameNode pair.1 pair.2) = true ↔ ∀ node ∈ nodes, unchanged node := by
  induction each with
  | nil => simp
  | cons first _ ih => rw [List.zip_cons_cons, List.all_cons, Bool.and_eq_true, first, ih, List.forall_mem_cons]

section Replies
variable (environment : Environment)

theorem constantParameterNullTest_replies :
    Replies SettledIn environment bare constantParameterNullTest fun form _ =>
      (decidedTest? environment form).map (constant ⟨0⟩) := by
  intro nodes call session called
  dsimp only [constantParameterNullTest]
  rw [decidedTest?_bare, called.situated]
  cases call.current with
  | isNull id operand =>
    cases operand with
    | parameter parameterId symbol =>
      dsimp only [decidedTest?, Scalar.inlined?]
      cases environment.constants.contains symbol with
      | false => exact .pure ⟨rfl, rfl⟩
      | true =>
        cases environment.parameters.get? symbol with
        | none => exact .pure ⟨rfl, rfl⟩
        | some value => exact .bind (.of_eq rfl (.pure ⟨rfl, rfl⟩))
    | literal | column | call => exact .pure ⟨rfl, rfl⟩
  | constant | and | or | not | compare => exact .pure ⟨rfl, rfl⟩

theorem simplifyOperands_replies :
    Replies SettledIn environment bare (simplifyOperands ⟨Scalar.allRules⟩) fun form _ =>
      if form.agrees (overSimplest environment form) then none else some (overSimplest environment form) := by
  intro nodes call session called
  have about : call.current.scalars ≠ [] := by simpa using (Pattern.mem_allMatches_filter.mp called.matched).1
  have known : ∀ scalar ∈ call.current.scalars, scalar ∈ scalarNodes nodes :=
    fun scalar member => mem_scalarNodes called.present member
  dsimp only [simplifyOperands]
  rw [called.situated]
  refine .bind ((simplifyScalars_simplest (fun _ => Iff.rfl) called.settles.scalars known).imp ?_)
  rintro simplified after ⟨-, wider, included, arena, each⟩
  generalize simplified.map Constrained.value = values at each ⊢
  have among := (List.forall₂_and_left _ _).mpr ⟨fun scalar member => included (known scalar member), each⟩
  have unchanged := all_sameNode_iff (among.imp fun scalar value ⟨present, joined, plain, same, lightened⟩ =>
    Scalar.sameNode_iff_simplest arena present joined plain same lightened)
  rw [← agrees_overSimplest_iff about] at unchanged
  have plain := forall_mem_of_forall₂ each fun _ _ held => held.2.1
  have forms : values.map Scalar.bare = call.current.scalars.map (Scalar.simplest environment) :=
    (List.map_congr_left fun value member => (Scalar.simplest_of_plain (plain value member)).symm).trans
      (map_eq_of_alike (each.imp fun _ _ held => held.2.2.1))
  split
  · rename_i same
    exact .pure ⟨rfl, by rw [if_pos (unchanged.mp same)]; rfl⟩
  · rename_i changed
    refine .bind ((withScalars_restates about each.length_eq after).imp ?_)
    rintro node later ⟨restated, -⟩
    refine .pure ⟨rfl, ?_⟩
    rw [if_neg (mt unchanged.mpr changed), ← restated.bare forms]
    rfl

theorem foldConstantComparison_replies :
    Replies SettledIn environment bare foldConstantComparison fun form _ => (folded? form).map (constant ⟨0⟩) := by
  intro nodes call session called
  have isCompare := (Pattern.mem_allMatches_operator.mp called.matched).1
  dsimp only [foldConstantComparison]
  rw [folded?_bare]
  cases shape : call.current with
  | compare id comparison left right =>
    dsimp only [folded?]
    cases left.asLiteral? with
    | none => exact .pure ⟨rfl, rfl⟩
    | some leftValue =>
      cases right.asLiteral? with
      | none => exact .pure ⟨rfl, rfl⟩
      | some rightValue =>
        dsimp only [Option.bind_eq_bind, Option.bind_some]
        cases comparison.eval? leftValue rightValue with
        | none => exact .pure ⟨rfl, rfl⟩
        | some truth => exact .bind (.of_eq rfl (.pure ⟨rfl, rfl⟩))
  | constant | and | or | not | isNull => cases shape ▸ isCompare

theorem foldConstantNullTest_replies :
    Replies SettledIn environment bare foldConstantNullTest fun form _ => (folded? form).map (constant ⟨0⟩) := by
  intro nodes call session called
  have isTest := (Pattern.mem_allMatches_operator.mp called.matched).1
  dsimp only [foldConstantNullTest]
  rw [folded?_bare]
  cases shape : call.current with
  | isNull id operand =>
    dsimp only [folded?]
    cases operand.asLiteral? with
    | none => exact .pure ⟨rfl, rfl⟩
    | some value => exact .bind (.of_eq rfl (.pure ⟨rfl, rfl⟩))
  | constant | and | or | not | compare => cases shape ▸ isTest

/-- Rules that never decline a negation all negate what it is over. -/
theorem replies_of_negates {rule : PredicateRule} (isStep : Rule.IsStep environment rule fun _ => False)
    (negates : rule.rootOperator? = some .not) :
    Replies SettledIn environment bare rule fun form _ => form.children.head?.map negated := by
  intro nodes call session called
  have isNot : PredicateKind.not = Tree.operator call.current := by simpa [negates] using called.offered
  refine (isStep call session called.situated called.matched).imp ?_
  rintro response after (⟨-, -, never⟩ | ⟨node, single, quiet, step⟩)
  · exact False.elim never
  · refine ⟨quiet, ?_⟩
    cases shape : call.current with
    | not id operand =>
      rw [shape] at step
      rw [single, List.map_singleton, step.bare_negated]
      rfl
    | constant | and | or | compare | isNull => cases shape ▸ isNot

theorem flatten_replies (name description : String) (kind : PredicateKind) :
    Replies SettledIn environment bare (flatten name description kind) fun form _ =>
      some (connective kind ⟨0⟩ (flattened kind form.children)) := by
  intro nodes call session _
  dsimp only [flatten]
  rw [newConnective_eq]
  refine .bind (.of_eq rfl (.pure ⟨rfl, ?_⟩))
  rw [children_bare, flattened_bare, ← bare_connective kind session.supply.draw.1]
  rfl

theorem absorbConstants_replies :
    Replies SettledIn environment bare absorbConstants fun form _ => absorbed? form := by
  intro nodes call session called
  obtain ⟨connects, -⟩ := Pattern.mem_allMatches_filter.mp called.matched
  obtain ⟨kind, id, operands, combines, shape⟩ := eq_connective_of_isConnective connects
  obtain ⟨neutral, absorbing, constants⟩ := identityAndAbsorbing?_of_combines combines
  have irreducible : Irreducible (connective kind id operands) ↔ _ := irreducible_connective_iff constants
  dsimp only [absorbConstants]
  rw [absorbed?_bare, shape, absorbed?_connective combines constants, kind_connective combines, children_connective,
    constants]
  dsimp only
  cases decided : operands.find? fun operand => operand.asConstant? = some absorbing with
  | some absorber =>
    have isAbsorbing : absorber.asConstant? = some absorbing := by simpa using List.find?_some decided
    have member := List.mem_of_find?_eq_some decided
    have absorbs : ∃ operand ∈ operands, operand.asConstant? = some absorbing := ⟨absorber, member, isAbsorbing⟩
    obtain ⟨absorberId, rfl⟩ := eq_constant_of_asConstant? isAbsorbing
    rw [if_neg fun settled => ((irreducible.mp settled).2 _ member).2 isAbsorbing, collapsed, if_pos absorbs]
    exact .pure ⟨rfl, rfl⟩
  | none =>
    have undecided : ∀ operand ∈ operands, operand.asConstant? ≠ some absorbing := by simpa using decided
    rw [partition_neutral]
    dsimp only
    split
    · rename_i settled
      obtain ⟨several, kept⟩ := keepsAll_iff.mp settled
      rw [if_pos (irreducible.mpr ⟨several, fun operand member => ⟨kept operand member, undecided operand member⟩⟩)]
      exact .pure ⟨rfl, rfl⟩
    · rename_i unsettled
      rw [if_neg fun settled => unsettled (keepsAll_iff.mpr ⟨(irreducible.mp settled).1,
        fun operand member => ((irreducible.mp settled).2 operand member).1⟩), collapsed,
        if_neg (by simpa using undecided)]
      generalize (operands.filter fun operand => operand.asConstant? ≠ some neutral) = kept
      match kept with
      | [] => exact .bind (.of_eq rfl (.pure ⟨rfl, rfl⟩))
      | [operand] => exact .pure ⟨rfl, rfl⟩
      | one :: other :: rest =>
        dsimp only
        rw [newConnective_eq]
        refine .bind (.of_eq rfl (.pure ⟨rfl, ?_⟩))
        exact congrArg (fun node => [node]) ((bare_connective ..).trans (bare_connective ..).symm)

theorem replies_of_mem_simplifyingRules {rule : PredicateRule} (member : rule ∈ simplifyingRules) :
    ∃ answer, Replies SettledIn environment bare rule answer := by
  simp only [simplifyingRules, allRules, List.dropLast_cons_cons, List.dropLast_singleton, List.mem_cons,
    List.not_mem_nil, or_false] at member
  rcases member with rfl | rfl | rfl | rfl | rfl | rfl | rfl | rfl | rfl | rfl
  · exact ⟨_, constantParameterNullTest_replies environment⟩
  · exact ⟨_, simplifyOperands_replies environment⟩
  · exact ⟨_, foldConstantComparison_replies environment⟩
  · exact ⟨_, foldConstantNullTest_replies environment⟩
  · exact ⟨_, replies_of_negates environment (notOverConstant_isStep environment) rfl⟩
  · exact ⟨_, replies_of_negates environment (doubleNegation_isStep environment) rfl⟩
  · exact ⟨_, replies_of_negates environment (notOverComparison_isStep environment) rfl⟩
  · exact ⟨_, flatten_replies environment _ _ .and⟩
  · exact ⟨_, flatten_replies environment _ _ .or⟩
  · exact ⟨_, absorbConstants_replies environment⟩

end Replies

theorem settledIn_habitat : SessionHabitat SettledIn :=
  settled_habitat.ofSupply

section Promises
variable (environment : Environment)

theorem simplifyingRules_yieldExisting :
    ∀ rule ∈ simplifyingRules, YieldsExisting SettledIn environment rule := by
  intro rule member
  refine (isStep_of_mem_simplifyingRules environment member).yieldsExisting ?_ ?_
  · exact fun nodes session after settles more => settled_habitat.later nodes _ _ settles more
  · intro nodes session constraints current node constraint after settles present step
    exact ⟨_, Set.subset_insert _ _, step.settles settles present, Set.mem_insert _ _⟩

theorem simplifyingRules_honest : ∀ rule ∈ simplifyingRules, Honest SettledIn environment rule :=
  fun _ member => (isStep_of_mem_simplifyingRules environment member).honest
    fun _ _ _ _ _ _ step => step.derived

theorem simplifyingRules_replace : ∀ rule ∈ simplifyingRules, Replacing SettledIn environment rule :=
  fun _ member => (isStep_of_mem_simplifyingRules environment member).replacing
    fun _ _ _ _ _ _ _ settles present step => step.different settles.arena present

theorem simplifyingRules_contextFree : ∀ rule ∈ simplifyingRules, ContextFree SettledIn environment rule := by
  intro rule member
  obtain ⟨answer, replies⟩ := replies_of_mem_simplifyingRules environment member
  exact replies.alike.contextFree (simplifyingRules_replace environment rule member)

theorem simplifyingRules_answer :
    ∀ rule ∈ simplifyingRules, ∃ answer, AnswersBy SettledIn environment bare rule answer := by
  intro rule member
  obtain ⟨answer, replies⟩ := replies_of_mem_simplifyingRules environment member
  exact ⟨answer, replies.answersBy (simplifyingRules_replace environment rule member)⟩

/-- Pushing negations down is honest as well, since the result is to be explored again. -/
theorem deMorgan_honest : Honest SettledIn environment deMorgan :=
  fun _ _ _ called => ((deMorgan_pushesDown environment).yields called fun _ _ _ _ => trivial).imp
    fun response _ yields => by
      cases shape : response.results with
      | nil => exact .inr fun _ member => nomatch member
      | cons node _ => exact .inl (yields node (by simp [shape])).1

theorem deMorgan_yieldsExisting : YieldsExisting SettledIn environment deMorgan := by
  refine (deMorgan_pushesDown environment).yieldsExisting ?_ ?_
  · exact fun nodes session after settles more => settled_habitat.later nodes _ _ settles more
  · exact fun nodes session constraints current node constraint after settles present pushes =>
      pushes.settles settles present

theorem deMorgan_contextFree : ContextFree SettledIn environment deMorgan :=
  ((deMorgan_pushesDown environment).alike fun _ => not_false).contextFree
    ((deMorgan_pushesDown environment).replacing fun _ _ _ _ _ _ _ settles present pushes =>
      pushes.different settles.arena present)

end Promises
end Predicate
end QueryOptimizer
