import QueryOptimizer.Proofs.Simplification.Course
import QueryOptimizer.Proofs.Simplification.Stability

/-!
How runs settle. If what rules yield depends on the called node alone, and leads down to nodes that have
been dealt with or is explored again, then all nodes of the tree that a run returns rest.
-/
namespace QueryOptimizer
variable {ν ω σ : Type} [Tree ν ω]

theorem SessionHabitat.copies {settled : Set ν → Session σ → Prop}
    (habitat : SessionHabitat settled) : Copies (InSession settled) :=
  fun nodes ledger => habitat.copied nodes ledger.toSession

theorem SessionHabitat.renews {settled : Set ν → Session σ → Prop}
    (habitat : SessionHabitat settled) :
    Renews (InSession settled) fun _ _ => pure () :=
  fun nodes ledger node mapped settles present size joined =>
    .pure (habitat.copied nodes ledger.toSession node mapped settles present size joined)

variable [DecidableEq ω]

section Settling
variable (setting : Setting ν ω (Call ν → RuleM σ (Response ν))) (settled : Set ν → Session σ → Prop)
variable (watched : Set ν)

/-- The watched nodes strictly below a node rest. -/
def RestsBelow (node : ν) : Prop :=
  ∀ inner ∈ watched, Tree.Below node inner → Rests setting (InSession settled) inner

/-- The watched nodes of a tree rest. -/
def RestsThroughout (node : ν) : Prop :=
  ∀ inner ∈ watched, inner ∈ Tree.postOrder node → Rests setting (InSession settled) inner

variable {setting settled watched}

theorem restsBelow_of_children {node : ν}
    (finished : ∀ child ∈ Tree.children node, RestsThroughout setting settled watched child) :
    RestsBelow setting settled watched node :=
  fun inner member ⟨child, present, within⟩ => finished child present inner member within

theorem RestsBelow.throughout {node : ν} (below : RestsBelow setting settled watched node)
    (rests : Rests setting (InSession settled) node) : RestsThroughout setting settled watched node := by
  intro inner member within
  rcases Tree.mem_postOrder_iff_below.mp within with rfl | further
  · exact rests
  · exact below inner member further

/-- What a call comes to that returns: it left the node in place and recorded nothing, unless for the node
itself, or it yielded another node, whose constraint it recorded. -/
theorem callRule_settles {base : Set ν}
    (existing : ∀ rule ∈ setting.rules.rules, YieldsExisting settled setting.environment rule)
    (leadsDown : ∀ rule ∈ setting.rules.rules, LeadsDown settled setting.environment rule base watched)
    {root current : ν} {application : SimplificationRule ν ω σ × Bindings ν}
    (member : application ∈ applications setting.rules current) {nodes : Set ν} {ledger : Ledger ν σ}
    (settles : settled nodes ledger.toSession) (included : base ⊆ nodes) (rooted : root ∈ nodes)
    (present : current ∈ nodes) :
    WhenReturns (callRule setting.environment application.1 root current application.2) ledger
      fun yielded? after => ∃ wider, nodes ⊆ wider ∧ settled wider after.toSession ∧
        (yielded? = none → after.constraints = ledger.constraints) ∧
        (∀ yielded, yielded? = some yielded → ∃ constraint,
          after.constraints = attachConstraint ledger.constraints current yielded.node constraint) ∧
        Verdict current (LeftInPlace settled setting.environment current application)
          (fun yielded => yielded.node ∈ wider ∧ (yielded.reExplore = false →
            ∀ inner ∈ watched, Tree.Below yielded.node inner → Tree.Below current inner)) yielded? := by
  have isRule := (mem_applications.mp member).1.1
  have called := calledIn_of_mem_applications setting.environment member settles rooted present
  refine (callRule_answered setting.environment application.1 root current application.2 ledger).imp ?_
  rintro yielded? after ⟨response, session, found, answer⟩
  obtain ⟨wider, extended, settles, joined⟩ := (existing _ isRule _ _ _ called).at_ok found
  have down := (leadsDown _ isRule _ _ _ called included).at_ok found
  refine ⟨wider, extended, ?_⟩
  rcases answer with ⟨empty, rfl, rfl⟩ | ⟨node, single, rfl, rfl⟩
  · exact ⟨settles, fun _ => rfl, (fun _ absent => nomatch absent),
      nodes, _, _, response, session, called, rfl, rfl, found, .inl empty⟩
  · refine ⟨settles, (fun absent => nomatch absent), ?_, ?_⟩
    · rintro _ ⟨⟩
      exact ⟨response.constraint, rfl⟩
    · refine ⟨fun same => ?_, fun different => ?_⟩
      · exact ⟨nodes, _, _, response, session, called, rfl, rfl, found, .inr ⟨node, single, same⟩⟩
      · exact ⟨joined node (by simp [single]), fun quiet => down quiet node (by simp [single]) different⟩

end Settling

section Runs
variable {setting : Setting ν ω (Call ν → RuleM σ (Response ν))} {settled : Set ν → Session σ → Prop}

/-- Under rules that lead down, all nodes of a tree come to rest. The nodes under way may have a property
besides, which goes by their descendants. -/
theorem settling_course
    (existing : ∀ rule ∈ setting.rules.rules, YieldsExisting settled setting.environment rule)
    (contextFree : ∀ rule ∈ setting.rules.rules, ContextFree settled setting.environment rule)
    (leadsDown : ∀ rule ∈ setting.rules.rules, LeadsDown settled setting.environment rule ∅ Set.univ)
    (shape : ν → Prop)
    (preserved : ∀ current node, shape current → (∀ inner, Tree.Below node inner → Tree.Below current inner) →
      shape node) :
    Course setting (InSession settled) (fun node => RestsBelow setting settled Set.univ node ∧ shape node)
      (fun node => RestsThroughout setting settled Set.univ node ∧ shape node)
      (LeftInPlace settled setting.environment) := by
  refine ⟨?_, ?_⟩
  · rintro nodes ledger root current settles rooted present ⟨below, shaped⟩ application member
    refine (callRule_settles existing leadsDown member settles (Set.empty_subset _) rooted present).imp ?_
    rintro yielded? after ⟨wider, extended, settles, -, -, verdict⟩
    refine ⟨wider, extended, settles, verdict.mono (fun left => left) ?_⟩
    rintro yielded ⟨joined, down⟩
    refine ⟨joined, fun quiet => ⟨fun inner watched further => below inner watched ?_, ?_⟩⟩
    · exact down quiet inner watched further
    · exact preserved current yielded.node shaped fun inner => down quiet inner trivial
  · rintro node ⟨below, shaped⟩ left
    exact ⟨below.throughout (rests_of_leftInPlace existing contextFree left), shaped⟩

variable [LawfulTree ν] (habitat : SessionHabitat settled)
  (existing : ∀ rule ∈ setting.rules.rules, YieldsExisting settled setting.environment rule)
  (contextFree : ∀ rule ∈ setting.rules.rules, ContextFree settled setting.environment rule)
  (leadsDown : ∀ rule ∈ setting.rules.rules, LeadsDown settled setting.environment rule ∅ Set.univ)
  {root : ν} {nodes : Set ν} {session : Session σ}
include habitat existing contextFree leadsDown

/-- All nodes of a simplified tree rest. -/
theorem simplify_settles (settles : settled nodes session) (present : root ∈ nodes) :
    WhenReturns (simplify setting root) session fun simplified after =>
      ∃ wider, nodes ⊆ wider ∧ settled wider after ∧ simplified.value ∈ wider ∧
        ∀ inner ∈ Tree.postOrder simplified.value, Rests setting (InSession settled) inner := by
  have course := settling_course existing contextFree leadsDown (fun _ => True) fun _ _ shaped _ => shaped
  refine (course.simplify (fun nodes ledger => habitat.arena nodes ledger.toSession) habitat.copies ?_ settles
    present).imp ?_
  · intro node finished
    exact ⟨restsBelow_of_children fun child member => (finished child member).1, trivial⟩
  · rintro simplified after ⟨wider, _, extended, settles, known, ⟨rests, -⟩, -⟩
    exact ⟨wider, extended, settles, known, fun inner within => rests inner trivial within⟩

/-- All nodes of an optimized tree rest, and it is no higher than the traversal may go. -/
theorem optimize_settles {limits : Limits} (settles : settled nodes session) (present : root ∈ nodes) :
    WhenReturns (optimize setting limits root) session fun optimized after =>
      ∃ wider, nodes ⊆ wider ∧ settled wider after ∧ optimized.value ∈ wider ∧
        Tree.height optimized.value ≤ limits.recursion ∧
        ∀ inner ∈ Tree.postOrder optimized.value, Rests setting (InSession settled) inner := by
  have courses (depth : Nat) := settling_course existing contextFree leadsDown
    (fun node => Tree.height node ≤ depth) fun _ _ low down => (Tree.height_le_of_below down).trans low
  have fit : InSession settled nodes ({ toSession := session } : Ledger ν σ) := settles
  have run := Course.explore (fun nodes ledger => habitat.arena nodes ledger.toSession) courses habitat.renews
    (fun depth node finished => ⟨restsBelow_of_children fun child member => (finished child member).1,
      Tree.height_le_succ_iff.mpr fun child member => (finished child member).2⟩)
    limits limits.recursion fit present present
  rw [← optimizeNoting_silent]
  refine .bind (onFreshLedger_ends (run.imp ?_))
  rintro result after ⟨wider, extended, settles, known, rests, low⟩
  have final : ∀ constraint : Constraint, ∃ wider, nodes ⊆ wider ∧ settled wider after.toSession ∧
      (⟨result, constraint⟩ : Constrained ν).value ∈ wider ∧ Tree.height result ≤ limits.recursion ∧
      ∀ inner ∈ Tree.postOrder result, Rests setting (InSession settled) inner :=
    fun _ => ⟨wider, extended, settles, known, low, fun inner within => rests inner trivial within⟩
  by_cases same : sameNode result root = true
  · simp only [same, if_true]
    exact .pure (final _)
  · simp only [same]
    exact .pure (final _)

end Runs
end QueryOptimizer
