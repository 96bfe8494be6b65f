import QueryOptimizer.Proofs.Predicate.Contract
import QueryOptimizer.Proofs.Predicate.Exploration
import QueryOptimizer.Proofs.Soundness

/-!
Optimization with rules that are honest about re-exploration returns a full normal form: no rule has
anything left to do at any node, and optimizing once more returns the very same node.
-/
namespace QueryOptimizer

/-- Whatever tree is optimized, and by whatever context-free rules: if they ask for re-exploration wherever
they yield a node over new children, then nothing can be done any more to the tree that is returned, neither
then nor at any later time that it exists. -/
theorem optimize_returns_normal_form {ν ω σ : Type} [Tree ν ω] [DecidableEq ω] [LawfulTree ν]
    (setting : Setting ν ω (Call ν → RuleM σ (Response ν))) (limits : Limits)
    {settled : Set ν → Session σ → Prop} (habitat : SessionHabitat settled)
    (existing : ∀ rule ∈ setting.rules.rules, YieldsExisting settled setting.environment rule)
    (contextFree : ∀ rule ∈ setting.rules.rules, ContextFree settled setting.environment rule)
    (honest : ∀ rule ∈ setting.rules.rules, Honest settled setting.environment rule)
    {root : ν} {nodes : Set ν} {session after : Session σ} {optimized : Constrained ν}
    (settles : settled nodes session) (present : root ∈ nodes)
    (returned : optimize setting limits root session = .ok optimized after) :
    (∃ wider, nodes ⊆ wider ∧ settled wider after ∧ optimized.value ∈ wider) ∧
      ∀ others later, settled others later → optimized.value ∈ others →
        (∀ node ∈ Tree.postOrder optimized.value, ∃ final,
          simplifyCurrent setting.environment setting.rules node later = .ok [] final) ∧
        ∃ final, optimize setting limits optimized.value later = .ok ⟨optimized.value, .none⟩ final := by
  have leadsDown : ∀ rule ∈ setting.rules.rules, LeadsDown settled setting.environment rule ∅ Set.univ :=
    fun rule member => (honest rule member).leadsDown
  obtain ⟨wider, included, settlesAfter, known, low, rests⟩ :=
    (optimize_settles habitat existing contextFree leadsDown settles present).at_ok returned
  refine ⟨⟨wider, included, settlesAfter, known⟩, ?_⟩
  intro others later settlesLater presentLater
  constructor
  · intro node within
    have inner := (habitat.arena others later settlesLater).subtree presentLater within
    obtain ⟨_, final, found, rfl, -⟩ := (simplifyCurrent_of_rests (rests node within) settlesLater inner).returned
    exact ⟨final, found⟩
  · obtain ⟨_, final, found, rfl, -⟩ := (optimize_of_rests habitat low rests settlesLater presentLater).returned
    exact ⟨final, found⟩

/-- The negation of a conjunction whose operands are one and the same null test, which the normalizing rules
turn into a disjunction. -/
theorem optimize_returns_normal_form_shared_test :
    let test : Predicate := .isNull ⟨1⟩ (.column ⟨0⟩ ⟨"t"⟩ "a")
    let root : Predicate := .not ⟨3⟩ (.and ⟨2⟩ [test, test])
    let setting := Predicate.setting {} ⟨Predicate.allRules ⟨Scalar.allRules⟩⟩
    root.WellFormed ⟨4⟩ ∧
      (∀ rule ∈ setting.rules.rules, YieldsExisting Predicate.SettledIn setting.environment rule) ∧
      (∀ rule ∈ setting.rules.rules, ContextFree Predicate.SettledIn setting.environment rule) ∧
      (∀ rule ∈ setting.rules.rules, Honest Predicate.SettledIn setting.environment rule) ∧
      ∃ optimized after, optimize setting {} root ⟨⟨4⟩, ()⟩ = .ok optimized after ∧
        (∀ node ∈ Tree.postOrder optimized.value, ∃ final,
          simplifyCurrent setting.environment setting.rules node after = .ok [] final) ∧
        ∃ final, optimize setting {} optimized.value after = .ok ⟨optimized.value, .none⟩ final := by
  intro test root setting
  have columnFormed : WellFormed (Scalar.column ⟨0⟩ ⟨"t"⟩ "a") ⟨1⟩ := .leaf rfl Nat.zero_lt_one
  have testFormed : WellFormed test ⟨2⟩ := .leaf rfl Nat.one_lt_two
  have rootFormed : WellFormed root ⟨4⟩ := by
    have conjunctionFormed : WellFormed (Predicate.and ⟨2⟩ [test, test]) ⟨3⟩ :=
      testFormed.parent (by simp [Tree.children, Predicate.children]) rfl
    exact conjunctionFormed.parent (fun _ => List.mem_singleton) rfl
  have formed : root.WellFormed ⟨4⟩ := by
    refine ⟨rootFormed, (columnFormed.mono (Nat.le_add_right 1 3)).restrict ?_ (Predicate.scalarNodes_closed _)⟩
    rintro scalar ⟨node, present, owner, about, within⟩
    obtain rfl : node = test := by
      rcases Tree.mem_postOrder.mp present with rfl | ⟨conjunction, below, further⟩
      · cases about
      · obtain rfl := List.mem_singleton.mp below
        rcases Tree.mem_postOrder.mp further with rfl | ⟨operand, either, inner⟩
        · cases about
        · have same : operand = test := by simpa [Tree.children, Predicate.children] using either
          rw [same] at inner
          exact (Tree.mem_postOrder_of_leaf rfl).mp inner
    exact List.mem_singleton.mp about ▸ within
  have every {holds : Predicate.PredicateRule → Prop} (simplifying : ∀ rule ∈ Predicate.simplifyingRules, holds rule)
      (pushing : holds Predicate.deMorgan) : ∀ rule ∈ setting.rules.rules, holds rule := by
    intro rule member
    rcases Predicate.mem_allRules.mp member with simplifies | rfl
    · exact simplifying rule simplifies
    · exact pushing
  have existing := every (Predicate.simplifyingRules_yieldExisting {}) (Predicate.deMorgan_yieldsExisting {})
  have contextFree := every (Predicate.simplifyingRules_contextFree {}) (Predicate.deMorgan_contextFree {})
  have honest := every (Predicate.simplifyingRules_honest {}) (Predicate.deMorgan_honest {})
  obtain ⟨optimized, after, returned⟩ := Predicate.optimize_returns {} {} root ⟨⟨4⟩, ()⟩ (by decide) rootFormed
    (by decide)
  have settles : Predicate.SettledIn {node | node ∈ Tree.postOrder root} ⟨⟨4⟩, ()⟩ := formed
  obtain ⟨⟨wider, -, settlesAfter, known⟩, final⟩ := optimize_returns_normal_form setting {}
    Predicate.settledIn_habitat existing contextFree honest settles (Tree.root_mem_postOrder root) returned
  exact ⟨formed, existing, contextFree, honest, optimized, after, returned, final wider after settlesAfter known⟩

end QueryOptimizer
