import QueryOptimizer.Proofs.Predicate.Step

/-!
Steps of the predicate rules take weight off and fit in beside the nodes there are, so that
simplification always comes to an end.
-/
namespace QueryOptimizer

theorem totalOf_filter_add (count : α → Nat) (test : α → Bool) (elements : List α) :
    totalOf count (elements.filter test) + totalOf count (elements.filter fun element => !test element) =
      totalOf count elements := by
  induction elements with
  | nil => rfl
  | cons element rest ih =>
    cases passes : test element with
    | true =>
      rw [List.filter_cons_of_pos passes, List.filter_cons_of_neg (by simp [passes]), totalOf, totalOf]
      omega
    | false =>
      rw [List.filter_cons_of_neg (by simp [passes]), List.filter_cons_of_pos (by simp [passes]), totalOf, totalOf]
      omega

namespace Predicate

theorem weightEach_eq (predicates : List Predicate) : weightEach predicates = totalOf weight predicates := by
  induction predicates with
  | nil => rfl
  | cons predicate rest ih => simp only [weightEach, totalOf, ih]

theorem weight_pos (predicate : Predicate) : 0 < predicate.weight := by
  cases predicate <;> simp only [weight] <;> omega

@[simp] theorem weight_connective (kind : PredicateKind) (id : NodeId) (operands : List Predicate) :
    (connective kind id operands).weight = 2 + totalOf weight operands := by
  cases kind <;> simp [connective, weight, weightEach_eq]

theorem weight_additive : Additive weight := by
  intro node mapped id size
  cases node with
  | and | or =>
    simp only [Tree.copyOver, copyOver, Tree.children, children, weight, weightEach_eq]
    omega
  | not =>
    obtain ⟨operand, rfl⟩ := List.length_eq_one_iff.mp size
    simp only [Tree.copyOver, copyOver, Tree.children, children, weight, totalOf, List.headD_cons]
    omega
  | constant | compare | isNull =>
    obtain rfl := List.length_eq_zero_iff.mp size
    rfl

/-- Flattening loses the weight of the nested connectives themselves. -/
theorem totalOf_flattened_le {kind : PredicateKind} (combines : IsConnectiveKind kind)
    (operands : List Predicate) : totalOf weight (flattened kind operands) ≤ totalOf weight operands := by
  induction operands with
  | nil => exact Nat.le_refl _
  | cons operand rest ih =>
    rw [flattened, List.flatMap_cons, totalOf_append, totalOf]
    refine Nat.add_le_add ?_ ih
    split
    · rename_i nested
      obtain ⟨id, operands, rfl⟩ := eq_connective_of_kind combines nested
      rw [children_connective, weight_connective]
      omega
    · exact Nat.le_refl _

theorem totalOf_flattened_lt {kind : PredicateKind} (combines : IsConnectiveKind kind)
    {operands : List Predicate} (nested : ∃ operand ∈ operands, operand.kind = kind) :
    totalOf weight (flattened kind operands) < totalOf weight operands := by
  obtain ⟨operand, member, same⟩ := nested
  obtain ⟨front, back, rfl⟩ := List.append_of_mem member
  obtain ⟨id, inner, rfl⟩ := eq_connective_of_kind combines same
  have before := totalOf_flattened_le combines front
  have after := totalOf_flattened_le combines back
  rw [flattened, List.flatMap_append, List.flatMap_cons, if_pos same, children_connective]
  rw [flattened] at before after
  simp only [totalOf_append, totalOf, weight_connective]
  omega

section Step
variable {environment : Environment} {constraints : Table Predicate Constraint} {supply later : Supply}
variable {current node : Predicate} {constraint : Constraint}

theorem Step.lighter (step : Step environment constraints supply current node constraint later) :
    node.weight < current.weight := by
  cases step with
  | parameterDecided | nullTestFolded | comparisonFolded =>
    simp only [weight, Scalar.weight]
    omega
  | constantNegated =>
    simp only [weight]
    omega
  | comparisonSimplified foundLeft foundRight changed =>
    have left := (Scalar.lightened_of_simplify foundLeft).2
    have right := (Scalar.lightened_of_simplify foundRight).2
    simp only [weight]
    rcases changed with changed | changed
    · exact Nat.add_lt_add_of_lt_of_le (Nat.add_lt_add_left (left.lt changed) 2) right.le
    · exact Nat.add_lt_add_of_le_of_lt (Nat.add_le_add_left left.le 2) (right.lt changed)
  | nullTestSimplified found changed =>
    have lightened := (Scalar.lightened_of_simplify found).2
    exact Nat.add_lt_add_left (lightened.lt changed) 1
  | doublyNegated | comparisonNegated =>
    simp only [weight]
    omega
  | flattened combines nested =>
    have lower := totalOf_flattened_lt combines nested
    simp only [weight_connective]
    omega
  | absorbed _ member =>
    simp only [weight_connective, weight]
    omega
  | emptied =>
    simp only [weight_connective, weight]
    omega
  | collapsed _ single =>
    have part := le_totalOf weight (List.mem_of_mem_filter (single ▸ List.mem_singleton_self _))
    rw [weight_connective]
    omega
  | @reduced neutral _ operands _ _ _ _ dropped =>
    obtain ⟨operand, member, isNeutral⟩ := dropped
    have parts := totalOf_filter_add weight (fun operand => operand.asConstant? = some neutral) operands
    have dropped : operand ∈ operands.filter fun operand => operand.asConstant? = some neutral :=
      List.mem_filter.mpr ⟨member, decide_eq_true isNeutral⟩
    have part := le_totalOf weight dropped
    have positive := weight_pos operand
    simp only [weight_connective, ne_eq, decide_not]
    omega

theorem Step.allocates (step : Step environment constraints supply current node constraint later) :
    supply.allocated ≤ later.allocated := by
  cases step with
  | comparisonSimplified foundLeft foundRight =>
    have first := (Scalar.lightened_of_simplify foundLeft).1
    have second := (Scalar.lightened_of_simplify foundRight).1
    exact Nat.le_succ_of_le (Nat.le_trans first second)
  | nullTestSimplified found => exact Nat.le_succ_of_le (Scalar.lightened_of_simplify found).1
  | _ => simp [Supply.draw]

/-- The operands of a connective exist beside it. -/
theorem operand_present {nodes : Set Predicate} (arena : Arena nodes supply) {kind : PredicateKind}
    {id : NodeId} {operands : List Predicate} (combined : connective kind id operands ∈ nodes)
    {operand : Predicate} (member : operand ∈ operands) : operand ∈ nodes :=
  arena.closed _ combined operand (by rwa [← children_connective kind id operands] at member)

/-- The replacement can exist beside the nodes there are. -/
theorem Step.joins (step : Step environment constraints supply current node constraint later)
    {nodes : Set Predicate} (arena : Arena nodes supply) (present : current ∈ nodes) :
    Arena (insert node nodes) later := by
  have known (kept : Predicate) (member : kept ∈ nodes) : Arena (insert kept nodes) supply := by
    rw [Set.insert_eq_of_mem member]
    exact arena
  cases step with
  | parameterDecided | comparisonFolded | nullTestFolded | constantNegated | comparisonNegated =>
    exact arena.insert rfl (by intro child below; cases below)
  | comparisonSimplified foundLeft foundRight =>
    have first := (Scalar.lightened_of_simplify foundLeft).1
    have second := (Scalar.lightened_of_simplify foundRight).1
    exact (arena.mono (Nat.le_trans first second)).insert rfl (by intro child below; cases below)
  | nullTestSimplified found =>
    have drawn := (Scalar.lightened_of_simplify found).1
    exact (arena.mono drawn).insert rfl (by intro child below; cases below)
  | doublyNegated =>
    have inner := arena.closed _ present _ (List.mem_singleton_self _)
    exact known _ (arena.closed _ inner _ (List.mem_singleton_self _))
  | flattened combines =>
    refine arena.insert (identity_connective _ _ _) ?_
    intro child below
    have flat := below
    rw [show Tree.children (connective _ _ _) = _ from children_connective _ _ _] at flat
    obtain ⟨outer, member, within⟩ := List.mem_flatMap.mp flat
    have outerPresent := operand_present arena present member
    split at within
    · exact arena.closed outer outerPresent child within
    · rw [List.mem_singleton.mp within]
      exact outerPresent
  | absorbed _ member => exact known _ (operand_present arena present member)
  | emptied =>
    exact arena.insert rfl (by intro child below; cases below)
  | collapsed _ single =>
    exact known _ (operand_present arena present
      (List.mem_of_mem_filter (single ▸ List.mem_singleton_self _)))
  | reduced =>
    refine arena.insert (identity_connective _ _ _) ?_
    intro child below
    rw [show Tree.children (connective _ _ _) = _ from children_connective _ _ _] at below
    exact operand_present arena present (List.mem_of_mem_filter below)

/-- What replaces a negated connective can exist beside the nodes there are, and brings no scalars with
it. -/
theorem PushesDown.joins (pushes : PushesDown constraints supply current node constraint later)
    {nodes : Set Predicate} (arena : Arena nodes supply) (present : current ∈ nodes) :
    ∃ wider, nodes ⊆ wider ∧ Arena wider later ∧ node ∈ wider ∧
      ∀ joined ∈ wider, joined ∈ nodes ∨ joined.scalars = [] := by
  have negated (operands : List Predicate) {nodes : Set Predicate} {supply : Supply} (arena : Arena nodes supply)
      (members : ∀ operand ∈ operands, operand ∈ nodes) :
      ∃ wider, nodes ⊆ wider ∧ Arena wider ⟨supply.allocated + operands.length⟩ ∧
        (∀ negation ∈ negations supply.allocated operands, negation ∈ wider) ∧
        ∀ joined ∈ wider, joined ∈ nodes ∨ joined.scalars = [] := by
    induction operands generalizing nodes supply with
    | nil => exact ⟨nodes, subset_rfl, arena, by simp [negations], fun _ member => .inl member⟩
    | cons operand rest ih =>
      have first : Arena (insert (.not supply.draw.1 operand) nodes) supply.draw.2 :=
        arena.insert rfl (by simpa [Tree.children, children] using members operand (by simp))
      obtain ⟨wider, included, joined, all, bare⟩ := ih first
        fun other member => Set.mem_insert_of_mem _ (members other (by simp [member]))
      refine ⟨wider, (Set.subset_insert _ _).trans included, ?_, ?_, ?_⟩
      · simpa [Supply.draw, Nat.add_assoc, Nat.add_comm 1] using joined
      · intro negation member
        rcases List.mem_cons.mp member with rfl | later
        · exact included (Set.mem_insert _ _)
        · exact all negation later
      · intro other member
        rcases bare other member with known | none
        · rcases Set.mem_insert_iff.mp known with rfl | old
          · exact .inr rfl
          · exact .inl old
        · exact .inr none
  cases pushes with
  | @intro _ _ _ operands =>
    have inner := arena.closed _ present _ (List.mem_singleton_self _)
    obtain ⟨wider, included, joined, all, bare⟩ := negated operands arena fun operand member =>
      operand_present arena inner member
    refine ⟨_, included.trans (Set.subset_insert _ _), joined.insert (identity_connective _ _ _) ?_,
      Set.mem_insert _ _, ?_⟩
    · intro child below
      rw [show Tree.children (connective _ _ _) = _ from children_connective _ _ _] at below
      exact all child below
    · intro other member
      rcases Set.mem_insert_iff.mp member with rfl | known
      · exact .inr (scalars_connective _ _ _)
      · exact bare other known

end Step

/-- What the driver's call of a simplifying rule comes to. -/
theorem callRule_step (environment : Environment) (ledger : Ledger Predicate Unit) (root : Predicate)
    {current : Predicate} {rule : PredicateRule} {bindings : Bindings Predicate}
    (isRule : rule ∈ simplifyingRules) (matched : bindings ∈ rule.pattern.allMatches .empty current) :
    Returns (callRule environment rule root current bindings) ledger fun yielded? after =>
      (∃ session, yielded? = none ∧ after = { ledger with toSession := session } ∧
        ledger.supply.allocated ≤ session.supply.allocated) ∨
      ∃ node constraint session, yielded? = some ⟨node, false⟩ ∧
        after = ledger.yielded session current node constraint ∧
        Step environment ledger.constraints ledger.supply current node constraint session.supply := by
  refine ((isStep_of_mem_simplifyingRules environment isRule).callRule root matched ledger).imp ?_
  intro yielded? after called
  rcases called with ⟨session, none, same, more, -⟩ | taken
  · exact .inl ⟨session, none, same, more⟩
  · exact .inr taken

/-- Simplification of a predicate with the default rules comes to an end, whatever the predicate. -/
theorem simplify_lightened (environment : Environment) (predicate : Predicate) (session : Session Unit) :
    Returns (simplify (setting environment ⟨simplifyingRules⟩) predicate) session fun simplified after =>
      session.supply.allocated ≤ after.supply.allocated ∧
        Lightened weight predicate simplified.value := by
  refine simplify_lightens (setting environment ⟨simplifyingRules⟩) weight_additive rfl ?_
    predicate session
  intro ledger root current application member
  obtain ⟨⟨isRule, -⟩, matched⟩ := mem_applications.mp member
  refine (callRule_step environment ledger root isRule matched).imp ?_
  intro yielded? after called
  rcases called with ⟨later, rfl, rfl, more⟩ | ⟨node, constraint, later, rfl, rfl, step⟩
  · exact ⟨more, by simp⟩
  · refine ⟨step.allocates, ?_⟩
    intro yielded found
    cases found
    exact ⟨rfl, step.lighter⟩

end Predicate
end QueryOptimizer
