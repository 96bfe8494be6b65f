import QueryOptimizer.Proofs.Predicate.Idle
import QueryOptimizer.Simplification.Exploration

/-!
Normalization: exploring a predicate with all rules ends within the bound on its depth, and reaches the
normal form. A node is explored again at most once, since a negation is only pushed down where the
first round starts, and what it becomes is no negation any more.
-/
namespace QueryOptimizer.Predicate

/-- The setting that predicates are normalized in. -/
def normalizing (environment : Environment) : Setting Predicate PredicateKind Action :=
  setting environment ⟨allRules ⟨Scalar.allRules⟩⟩

/-- The ledger belongs to a run in which the nodes exist. -/
def Fits (nodes : Set Predicate) (ledger : Ledger Predicate Unit) : Prop :=
  Arena nodes ledger.supply

/-- A node on its way to the normal form: over normal operands and within the height. In a later round
no negation is left to push down. -/
structure Underway (bound : Nat) (again : Prop) (nodes : Set Predicate) (node : Predicate) : Prop where
  present : node ∈ nodes
  ready : Ready node
  height : node.height ≤ bound
  settled : ¬ again → node.kind = .not → Normal node

/-- A node to explore again: only in the first round, and a connective. -/
structure Reopened (bound : Nat) (again : Prop) (nodes : Set Predicate) (node : Predicate) : Prop where
  first : again
  present : node ∈ nodes
  height : node.height ≤ bound
  combines : IsConnectiveKind node.kind

/-- Normalization uses every simplifying rule. -/
theorem dropLast_subset_normalizing (environment : Environment) :
    (allRules ⟨Scalar.allRules⟩).dropLast ⊆ (normalizing environment).rules.rules :=
  List.dropLast_subset _

/-- What the driver's call of a rule comes to: a step, or a negation that was pushed down, which is to be explored
again. -/
theorem callRule_normalizing (environment : Environment) (ledger : Ledger Predicate Unit) (root current : Predicate)
    {application : PredicateRule × Bindings Predicate}
    (member : application ∈ applications (normalizing environment).rules current) :
    Returns (callRule environment application.1 root current application.2) ledger fun yielded? after =>
      (∃ session, yielded? = none ∧ after = { ledger with toSession := session } ∧
        ledger.supply.allocated ≤ session.supply.allocated) ∨
      ∃ node constraint session, after = ledger.yielded session current node constraint ∧
        (yielded? = some ⟨node, false⟩ ∧
            Step environment ledger.constraints ledger.supply current node constraint session.supply ∨
          yielded? = some ⟨node, true⟩ ∧
            PushesDown ledger.constraints ledger.supply current node constraint session.supply) := by
  obtain ⟨rule, bindings⟩ := application
  obtain ⟨⟨isRule, -⟩, matched⟩ := mem_applications.mp member
  rcases mem_allRules.mp isRule with simplifies | rfl
  · refine (callRule_step environment ledger root simplifies matched).imp ?_
    rintro yielded? after (unchanged | ⟨node, constraint, session, yielded, same, step⟩)
    · exact .inl unchanged
    · exact .inr ⟨node, constraint, session, same, .inl ⟨yielded, step⟩⟩
  · refine ((deMorgan_pushesDown environment).callRule root matched ledger).imp ?_
    rintro yielded? after (⟨_, _, _, _, never⟩ | ⟨node, constraint, session, yielded, same, pushes⟩)
    · exact False.elim never
    · exact .inr ⟨node, constraint, session, same, .inr ⟨yielded, pushes⟩⟩

variable {environment : Environment} {bound : Nat} {again : Prop}
variable {stops : Interruption → Ledger Predicate Unit → Prop}

/-- Every call of a rule leaves a node underway in place, keeps it underway, or reopens it. -/
theorem normalizing_conduct :
    Conduct (normalizing environment) Fits (Underway bound again) (Reopened bound again) stops := by
  constructor
  · intro nodes wider node included known
    exact ⟨included known.present, known.ready, known.height, known.settled⟩
  · intro nodes ledger root current fit known application member
    refine (callRule_normalizing environment ledger root current member).mono ?_ fun _ _ => False.elim
    rintro yielded? after (⟨session, rfl, rfl, more⟩ | ⟨node, constraint, session, rfl, ⟨rfl, step⟩ | ⟨rfl, pushes⟩⟩)
    · exact ⟨nodes, le_refl _, Arena.mono fit more, by simp⟩
    · refine ⟨insert node nodes, Set.subset_insert _ _, step.joins fit known.present, ?_⟩
      rintro yielded ⟨⟩ -
      have kept := step.ready known.ready
      exact ⟨⟨Set.mem_insert _ _, kept.1, step.height_le.trans known.height, fun _ => kept.2⟩, step.lighter⟩
    · obtain ⟨wider, included, joined, present, -⟩ := pushes.joins fit known.present
      refine ⟨wider, included, joined, ?_⟩
      rintro yielded ⟨⟩ -
      have negation := pushes.not_normal
      have connective := pushes.height_le
      refine ⟨?_, present, connective.2.trans known.height, connective.1⟩
      by_contra later
      exact negation.2 (known.settled later negation.1)

/-- Steps lead to other nodes. -/
theorem stepsAway (node : Predicate) : StepsAway (normalizing environment) Fits (Underway bound again) node :=
  fun _ _ _ _ _ fit known step => step.different fit known.present

/-- A negation at which all rules are idle is over a null test. -/
theorem overNullTest_of_idle {id : NodeId} {operand : Predicate}
    (idle : Idle (normalizing environment) Fits (Underway bound again) (.not id operand)) :
    operand.kind = .isNull := by
  obtain ⟨notConstant, notNegated, notCompared⟩ :=
    operand_of_idle (dropLast_subset_normalizing environment) idle (stepsAway _)
  have disconnected : ¬ operand.isConnective = true := by
    intro connects
    have isRule : deMorgan ∈ (normalizing environment).rules.rules := mem_allRules.mpr (.inr rfl)
    exact idle.declines isRule rfl
      (Pattern.mem_allMatches_exactly_one.mpr ⟨rfl, operand, rfl, Pattern.mem_allMatches_filter.mpr ⟨connects, rfl⟩⟩)
      (deMorgan_pushesDown environment)
      fun _ _ _ _ _ fit known pushes => pushes.different fit known.present
  cases operand with
  | isNull => rfl
  | constant => exact absurd rfl notConstant
  | not => exact absurd rfl notNegated
  | compare => exact absurd rfl notCompared
  | and | or => exact absurd rfl disconnected

/-- A node over normal operands at which all rules are idle is normal. -/
theorem normal_of_idle {node : Predicate} (ready : Ready node)
    (idle : Idle (normalizing environment) Fits (Underway bound again) node) : Normal node := by
  refine normal_iff.mpr ⟨?_, ready⟩
  cases node with
  | not id operand => exact overNullTest_of_idle idle
  | and id operands => exact normalNode_of_idle (dropLast_subset_normalizing environment) (.inl rfl) idle (stepsAway _)
  | or id operands => exact normalNode_of_idle (dropLast_subset_normalizing environment) (.inr rfl) idle (stepsAway _)
  | constant | compare | isNull => trivial

end QueryOptimizer.Predicate
