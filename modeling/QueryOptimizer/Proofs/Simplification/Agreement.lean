import QueryOptimizer.Proofs.Simplification.Settling

/-!
The two drivers agree if nothing is explored again. Exploration carries constraints over to rebuilt nodes
and forgets all constraints of a tree that it returns as it is, but there is never anything to carry or to
forget: a node of the original tree that has a constraint was yielded by an earlier call, so that nothing in
it is rebuilt any more.
-/
namespace QueryOptimizer
variable {ν ω σ : Type} [Tree ν ω]

/-- A run on a fresh ledger mirrors another one if it does so on a ledger. -/
theorem onFreshLedger_mirrors {run other : Run ν σ α} {session : Session σ}
    {known : α × Table ν Constraint → Session σ → Prop}
    (mirrors : Mirrors run other { toSession := session } fun result after =>
      known (result, after.constraints) after.toSession) :
    Mirrors run.onFreshLedger other.onFreshLedger session known := by
  refine onFreshLedger_ends (Ends.imp mirrors ?_)
  rintro result after ⟨same, met⟩
  refine ⟨?_, met⟩
  simp only [Run.onFreshLedger, same]

/-- Rebuilding a node carries nothing over if there is nothing to carry, or if the children are those that the
node has. -/
theorem rebuild_mirrors_renew [LawfulTree ν] {nodes : Set ν} {ledger : Ledger ν σ} {node : ν} {mapped : List ν}
    {known : ν → Ledger ν σ → Prop} (arena : Arena nodes (Supplied.supply ledger)) (present : node ∈ nodes)
    (size : (Tree.children node).length = mapped.length) (joined : ∀ child ∈ mapped, child ∈ nodes)
    (bare : ledger.constraints.get? node = none ∨ mapped = Tree.children node)
    (rebuilds : WhenReturns (Tree.rebuild node mapped : Run ν σ ν) ledger known) :
    Mirrors (Tree.rebuild node mapped) (renew (fun _ _ => pure ()) node mapped) ledger known := by
  rcases bare with bare | rfl
  · rw [← bind_pure (Tree.rebuild node mapped : Run ν σ ν)]
    refine .bind (.refl ((rebuilds.and (arena.rebuild_returns present size joined)).partly.imp ?_))
    rintro result after ⟨known, -, ⟨rfl, rfl⟩ | ⟨rfl, rfl, different⟩⟩
    · simp only [sameNode_iff.mpr rfl, if_true]
      exact .pure known
    · let copy := Tree.copyOver node mapped ledger.supply.draw.1
      let drawn : Session σ := { ledger.toSession with supply := ledger.supply.draw.2 }
      have nothing : carryConstraint ledger.constraints node copy = ledger.constraints := by
        simp only [carryConstraint, bare]
      simp only [different]
      refine .of_eq rfl ?_ known
      show EStateM.Result.ok copy (Ledger.mk drawn (carryConstraint ledger.constraints node copy)) =
        EStateM.Result.ok copy (Ledger.mk drawn ledger.constraints)
      rw [nothing]
  · unfold renew
    rw [Tree.rebuild_children] at rebuilds ⊢
    simp only [pure_bind, sameNode_iff.mpr rfl, if_true]
    exact .refl rebuilds

variable [DecidableEq ω]

section Untangled
variable (setting : Setting ν ω (Call ν → RuleM σ (Response ν))) (settled : Set ν → Session σ → Prop)
variable (originals nodes : Set ν)

/-- The nodes are settled beside the original ones, and an original node under a constraint is made of nodes
that rest. -/
structure Untangled (ledger : Ledger ν σ) : Prop where
  settles : settled nodes ledger.toSession
  included : originals ⊆ nodes
  recorded : ∀ node ∈ originals, ledger.constraints.get? node ≠ none →
    ∀ inner ∈ Tree.postOrder node, Rests setting (InSession settled) inner

/-- What both drivers make of an original node: an existing node in which all original nodes rest, and the node
itself if all nodes in it rest. -/
structure Agreed (node result : ν) : Prop where
  known : result ∈ nodes
  rests : RestsThroughout setting settled originals result
  unchanged : (∀ inner ∈ Tree.postOrder node, Rests setting (InSession settled) inner) → result = node

variable {setting settled originals nodes}

/-- Over agreed children, an original node either has no constraint, or has these children already. -/
theorem Untangled.bare {ledger : Ledger ν σ} (fit : Untangled setting settled originals nodes ledger) {node : ν}
    {mapped : List ν} (original : node ∈ originals)
    (agreed : List.Forall₂ (Agreed setting settled originals nodes) (Tree.children node) mapped) :
    ledger.constraints.get? node = none ∨ mapped = Tree.children node := by
  by_cases absent : ledger.constraints.get? node = none
  · exact .inl absent
  · have rest : ∀ child ∈ Tree.children node, ∀ inner ∈ Tree.postOrder child,
        Rests setting (InSession settled) inner := fun child member inner within =>
      fit.recorded node original absent inner (Tree.mem_postOrder_of_child member within)
    have unchanged : List.Forall₂ (fun child result => result = child) (Tree.children node) mapped :=
      ((List.forall₂_and_left _ _).mpr ⟨rest, agreed⟩).imp fun _ _ held => held.2.unchanged held.1
    exact .inr (List.forall₂_eq_eq_eq ▸ unchanged.flip)

variable (habitat : SessionHabitat settled)
include habitat

theorem Untangled.arena {ledger : Ledger ν σ} (fit : Untangled setting settled originals nodes ledger) :
    Arena nodes ledger.supply :=
  habitat.arena nodes ledger.toSession fit.settles

theorem untangled_copies : Copies (Untangled setting settled originals) := by
  rintro nodes ledger node mapped ⟨settles, included, recorded⟩ present size joined
  exact ⟨habitat.copied nodes ledger.toSession node mapped settles present size joined,
    included.trans (Set.subset_insert _ _), recorded⟩

end Untangled
section Agreement
variable {setting : Setting ν ω (Call ν → RuleM σ (Response ν))} {settled : Set ν → Session σ → Prop}
variable (descending : ∀ rule ∈ setting.rules.rules, Descending settled setting.environment rule)
include descending

/-- What a call yields is built over descendants of the node. -/
theorem callRule_descends {root current : ν} {application : SimplificationRule ν ω σ × Bindings ν}
    (member : application ∈ applications setting.rules current) {nodes : Set ν} {ledger : Ledger ν σ}
    (settles : settled nodes ledger.toSession) (rooted : root ∈ nodes) (present : current ∈ nodes) :
    WhenReturns (callRule setting.environment application.1 root current application.2) ledger
      fun yielded? _ => ∀ yielded, yielded? = some yielded → BuiltOver current ledger.supply yielded.node := by
  have called := calledIn_of_mem_applications setting.environment member settles rooted present
  have promise := descending _ (mem_applications.mp member).1.1 _ _ _ called
  refine (callRule_answered setting.environment application.1 root current application.2 ledger).imp ?_
  rintro yielded? after ⟨response, session, found, ⟨-, rfl, -⟩ | ⟨node, single, rfl, -⟩⟩ yielded same
  · cases same
  · cases same
    exact (promise.at_ok found node (by simp [single])).2

variable {originals : Set ν} (habitat : SessionHabitat settled)
include habitat

/-- Simplification leaves an original node in place if all nodes in it rest, and records nothing. -/
theorem fold_simplifyNode_unchanged {root node : ν} {nodes : Set ν} {ledger : Ledger ν σ}
    (fit : Untangled setting settled originals nodes ledger) (rootOriginal : root ∈ originals)
    (original : node ∈ originals) :
    WhenReturns (Tree.fold (simplifyNode setting root) node) ledger fun result after =>
      (∀ inner ∈ Tree.postOrder node, Rests setting (InSession settled) inner) →
        result = node ∧ after.constraints = ledger.constraints := by
  refine whenReturns_iff.mpr fun result after found rests => ?_
  rw [← Tree.mapPostOrder_eq_fold] at found
  obtain ⟨same, unchanged, -⟩ := (mapPostOrder_simplifyNode_quietly habitat
    (fun rule member => (descending rule member).replacing habitat) rests fit.settles (fit.included rootOriginal)
    (fit.included original)).at_ok found
  exact ⟨same, unchanged⟩

variable {start : Supply} (arena : Arena originals start)
  (existing : ∀ rule ∈ setting.rules.rules, YieldsExisting settled setting.environment rule)
  (contextFree : ∀ rule ∈ setting.rules.rules, ContextFree settled setting.environment rule)
include arena existing contextFree

/-- Calls leave original nodes without a constraint, unless they are made of nodes that rest. -/
theorem untangled_course :
    Course setting (Untangled setting settled originals) (RestsBelow setting settled originals)
      (RestsThroughout setting settled originals) (LeftInPlace settled setting.environment) := by
  refine ⟨?_, fun node below left => below.throughout (rests_of_leftInPlace existing contextFree left)⟩
  rintro nodes ledger root current ⟨settles, included, recorded⟩ rooted present below application member
  have leadsDown : ∀ rule ∈ setting.rules.rules, LeadsDown settled setting.environment rule originals originals :=
    fun rule isRule => (descending rule isRule).leadsDown habitat originals
  have old := (habitat.arena nodes _ settles).allocated
  refine ((callRule_settles existing leadsDown member settles included rooted present).and
    (callRule_descends descending member settles rooted present)).mono ?_ fun _ _ _ => trivial
  rintro yielded? after ⟨⟨wider, extended, settlesAfter, quiet, attached, verdict⟩, built⟩
  refine ⟨wider, extended, ⟨settlesAfter, included.trans extended, ?_⟩, verdict.mono (fun left => left) ?_⟩
  · intro node original found
    cases yielded? with
    | none => exact recorded node original (quiet rfl ▸ found)
    | some yielded =>
      obtain ⟨constraint, attach⟩ := attached yielded rfl
      by_cases same : identity yielded.node = identity node
      · -- An original node that was yielded is below the current one, where all nodes rest by now.
        have derived := built yielded rfl
        have joined := (verdict.2 (derived.different (habitat.arena nodes _ settles) present)).1
        have equal := (habitat.arena wider _ settlesAfter).distinct _ joined _ (extended (included original)) same
        rw [equal] at derived
        have down := derived.below_of_old (Tree.root_mem_postOrder node) (old node (included original))
        exact fun inner within => below inner (arena.subtree original within) (down.trans_mem within)
      · rw [attach, Table.get?_attach_of_ne same] at found
        exact recorded node original found
  · rintro yielded ⟨joined, down⟩
    exact ⟨joined, fun asked inner original further => below inner original (down asked inner original further)⟩

variable [LawfulTree ν]

/-- At a node whose children the drivers agree about, the one round of exploration does what simplification
does. -/
theorem simplifyNode_mirrors_exploreRound {root node : ν} (rootOriginal : root ∈ originals)
    (original : node ∈ originals) {visit : ν → ν → Run ν σ ν} (again : ν → Run ν σ ν)
    (visits : ∀ child ∈ Tree.children node, ∀ nodes ledger, Untangled setting settled originals nodes ledger →
      Mirrors (Tree.fold (simplifyNode setting root) child) (visit root child) ledger fun result after =>
        Onward (Untangled setting settled originals) nodes after fun wider =>
          Agreed setting settled originals wider child result)
    {nodes : Set ν} {ledger : Ledger ν σ} (fit : Untangled setting settled originals nodes ledger) :
    Mirrors (Tree.fold (simplifyNode setting root) node)
      (exploreRoundNoting setting (fun _ _ => pure ()) visit root (sameNode root node) again node) ledger
      fun result after => Onward (Untangled setting settled originals) nodes after fun wider =>
        result ∈ wider ∧ RestsThroughout setting settled originals result := by
  have course := untangled_course descending habitat arena existing contextFree
  have ownRoot : (if sameNode root node then node else root) = root := by
    split
    · rename_i same
      exact arena.distinct node original root rootOriginal (sameNode_iff.mp same).symm
    · rfl
  have eitherRoot : sameNode node root = sameNode root node := by
    simp only [sameNode, eq_comm]
  rw [Tree.fold_eq]
  unfold exploreRoundNoting
  simp only [ownRoot]
  refine .bind ((Mirrors.mapM (Untangled setting settled originals) (Agreed setting settled originals) ?_ _ visits
    fit).imp ?_)
  · rintro world later child result extended ⟨known, rests, unchanged⟩
    exact ⟨extended known, rests, unchanged⟩
  rintro mapped middle ⟨between, extended, fitted, agreed⟩
  have joined := forall_mem_of_forall₂ agreed fun _ _ held => held.known
  have finished := forall_mem_of_forall₂ agreed fun _ _ held => held.rests
  have present := fitted.included original
  unfold simplifyNode
  have rebuilds := (untangled_copies habitat).rebuild (fun _ _ fit => fit.arena habitat) fitted present
    agreed.length_eq joined
  refine .bind ((rebuild_mirrors_renew (fitted.arena habitat) present agreed.length_eq joined
    (fitted.bare original agreed) rebuilds.partly).imp ?_)
  rintro rebuilt later ⟨wide, further, fitting, known, offspring⟩
  have callRooted : (if sameNode root node then rebuilt else root) ∈ wide := by
    split
    · exact known
    · exact fitting.included rootOriginal
  simp only [eitherRoot]
  refine .bind ((Mirrors.refl (course.fixpoint fitting callRooted known
    (restsBelow_of_children (offspring ▸ finished)))).imp ?_)
  rintro ⟨result, reExploredBy⟩ after ⟨widest, most, final, reached, finishes⟩
  cases reExploredBy with
  | none => exact .pure ⟨widest, le_trans (le_trans extended further) most, final, reached, finishes rfl⟩
  | some rule => exact True.intro

/-- The drivers agree about every original node that the traversal may go as deep as. -/
theorem fold_simplifyNode_mirrors_explore (limits : Limits) {root : ν} (rootOriginal : root ∈ originals) {depth : Nat}
    {node : ν} (original : node ∈ originals) (enough : Tree.height node ≤ depth) {nodes : Set ν}
    {ledger : Ledger ν σ} (fit : Untangled setting settled originals nodes ledger) :
    Mirrors (Tree.fold (simplifyNode setting root) node)
      (exploreNoting setting (fun _ _ => pure ()) limits depth root node) ledger fun result after =>
        Onward (Untangled setting settled originals) nodes after fun wider =>
          Agreed setting settled originals wider node result := by
  induction depth generalizing node nodes ledger with
  | zero => exact absurd enough (Nat.not_le.mpr (Tree.height_pos node))
  | succ depth ih =>
    have visits : ∀ child ∈ Tree.children node, ∀ nodes ledger, Untangled setting settled originals nodes ledger →
        Mirrors (Tree.fold (simplifyNode setting root) child)
          (exploreNoting setting (fun _ _ => pure ()) limits depth root child) ledger fun result after =>
            Onward (Untangled setting settled originals) nodes after fun wider =>
              Agreed setting settled originals wider child result := by
      intro child member nodes ledger fit
      exact ih (arena.closed node original child member) (Tree.height_le_succ_iff.mp enough child member) fit
    -- No rule asks for another round, so that it does not matter how many more may follow.
    obtain ⟨again, firstRound⟩ : ∃ again, exploreNoting setting (fun _ _ => pure ()) limits (depth + 1) root node =
        exploreRoundNoting setting (fun _ _ => pure ()) (exploreNoting setting (fun _ _ => pure ()) limits depth)
          root (sameNode root node) again node := by
      unfold exploreNoting
      cases limits.reExplorations with
      | zero => exact ⟨_, rfl⟩
      | succ remaining => exact ⟨_, rfl⟩
    rw [firstRound]
    refine ((simplifyNode_mirrors_exploreRound descending habitat arena existing contextFree rootOriginal original
      again visits fit).and (fold_simplifyNode_unchanged descending habitat fit rootOriginal original)).imp ?_
    rintro result after ⟨⟨wider, extended, fitted, known, rests⟩, unchanged⟩
    exact ⟨wider, extended, fitted, known, rests, fun quiet => (unchanged quiet).1⟩

end Agreement
end QueryOptimizer
