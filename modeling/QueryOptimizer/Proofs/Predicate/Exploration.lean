import QueryOptimizer.Proofs.Predicate.Normalization

/-!
Exploration of predicates: it ends normally exactly when the predicate is no higher than the traversal
may go, and then with a predicate in normal form.
-/
namespace QueryOptimizer.Predicate

/-- A node that exploration is done with. -/
structure Finished (bound : Nat) (nodes : Set Predicate) (node : Predicate) : Prop where
  present : node ∈ nodes
  normal : Normal node
  height : node.height ≤ bound

theorem Finished.mono {bound : Nat} {nodes wider : Set Predicate} {node : Predicate}
    (finished : Finished bound nodes node) (included : nodes ⊆ wider) : Finished bound wider node :=
  ⟨included finished.present, finished.normal, finished.height⟩

theorem Finished.widen {bound upper : Nat} {nodes : Set Predicate} {node : Predicate}
    (finished : Finished bound nodes node) (more : bound ≤ upper) : Finished upper nodes node :=
  ⟨finished.present, finished.normal, finished.height.trans more⟩

theorem heightEach_le_of_finished {nodes : Set Predicate} {children mapped : List Predicate}
    (finished : List.Forall₂ (fun child result => Finished child.height nodes result) children mapped) :
    heightEach mapped ≤ heightEach children := by
  induction finished with
  | nil => exact Nat.le_refl _
  | cons first _ ih =>
    have lower := first.height
    simp only [heightEach]
    omega

theorem ready_of_finished {nodes : Set Predicate} {children mapped : List Predicate}
    (finished : List.Forall₂ (fun child result => Finished child.height nodes result) children mapped) :
    ∀ result ∈ mapped, result ∈ nodes ∧ Normal result :=
  forall_mem_of_forall₂ finished fun _ _ held => ⟨held.present, held.normal⟩

variable {environment : Environment} {stops : Interruption → Ledger Predicate Unit → Prop}

/-- Over finished operands a node is underway. -/
theorem rebuild_underway {first : Prop} {nodes : Set Predicate} {ledger : Ledger Predicate Unit}
    {current : Predicate} {mapped : List Predicate} (fit : Fits nodes ledger) (present : current ∈ nodes)
    (quiet : ¬ first → current.kind ≠ .not)
    (finished : List.Forall₂ (fun child result => Finished child.height nodes result) current.children mapped) :
    Ends (Tree.rebuild current mapped : Run Predicate Unit Predicate) ledger
      (fun rebuilt after => Onward Fits nodes after fun wider => Underway current.height first wider rebuilt)
      stops := by
  have size : (Tree.children current).length = mapped.length := finished.length_eq
  have operands := ready_of_finished finished
  have arena : Arena nodes (Supplied.supply ledger) := fit
  refine (arena.rebuild_returns present size fun node member => (operands node member).1).mono ?_ fun _ _ => False.elim
  rintro rebuilt after ⟨copied, ⟨rfl, rfl⟩ | ⟨rfl, rfl, -⟩⟩
  · refine ⟨nodes, le_refl _, fit, present, ?_, Nat.le_refl _, fun later same => False.elim (quiet later same)⟩
    intro child member
    exact (operands child (copied ▸ member)).2
  · have sameKind := LawfulTree.operator_copyOver current mapped ledger.supply.draw.1
    have joined : Arena (insert (Tree.copyOver current mapped ledger.supply.draw.1) nodes)
        ledger.supply.draw.2 := by
      refine fit.insert (LawfulTree.identity_copyOver _ _ _) ?_
      exact fun child member => (operands child (copied ▸ member)).1
    refine ⟨insert _ nodes, Set.subset_insert _ _, joined, Set.mem_insert _ _, ?_, ?_, ?_⟩
    · intro child member
      exact (operands child (copied ▸ member)).2
    · have lower := heightEach_le_of_finished finished
      rw [height_eq current]
      exact (height_eq _).le.trans (Nat.add_le_add_left ((congrArg heightEach copied).le.trans lower) 1)
    · intro later same
      exact False.elim (quiet later (sameKind.symm.trans same))

/-- Exploration of `current` ends with `result`, which can only be if `current` is no higher than `depth`. -/
def FinishesWithin (depth : Nat) (nodes : Set Predicate) (current result : Predicate)
    (after : Ledger Predicate Unit) : Prop :=
  current.height ≤ depth ∧ Onward Fits nodes after fun wider => Finished current.height wider result

section Round
variable {depth : Nat} {current : Predicate} {nodes : Set Predicate} {ledger : Ledger Predicate Unit}
variable {visit : Predicate → Predicate → Run Predicate Unit Predicate}

/-- If visits of the operands finish within a depth, the node is at most one level higher. -/
theorem visitOperands_finish
    (visits : ∀ root, ∀ child ∈ current.children, ∀ nodes ledger, Fits nodes ledger → child ∈ nodes →
      Ends (visit root child) ledger (FinishesWithin depth nodes child) stops)
    (fit : Fits nodes ledger) (present : current ∈ nodes) (root : Predicate) :
    Ends (current.children.mapM (visit root)) ledger
      (fun mapped after => current.height ≤ depth + 1 ∧ Onward Fits nodes after fun wider => current ∈ wider ∧
        List.Forall₂ (fun child result => Finished child.height wider result) current.children mapped) stops := by
  let fits (wider : Set Predicate) (ledger : Ledger Predicate Unit) : Prop := Fits wider ledger ∧ nodes ⊆ wider
  have each : Ends (current.children.mapM (visit root)) ledger
      (fun mapped after => Onward fits nodes after fun wider =>
        List.Forall₂ (fun child result => child.height ≤ depth ∧ Finished child.height wider result)
          current.children mapped) stops := by
    refine Ends.mapM fits (fun wider child result => child.height ≤ depth ∧ Finished child.height wider result)
      ?_ current.children ?_ ⟨fit, subset_rfl⟩
    · intro wider later child result included held
      exact ⟨held.1, held.2.mono included⟩
    · intro child member wider ledger fit
      have known := fit.1.closed current (fit.2 present) child member
      refine (visits _ child member wider ledger fit.1 known).imp ?_
      intro result after outcome
      obtain ⟨within, later, extended, fitted, finished⟩ := outcome
      exact ⟨later, extended, ⟨fitted, fit.2.trans extended⟩, within, finished⟩
  refine each.imp ?_
  intro mapped after outcome
  obtain ⟨wider, extended, ⟨fitted, included⟩, all⟩ := outcome
  refine ⟨?_, wider, extended, fitted, included present, all.imp fun _ _ held => held.2⟩
  have lower : heightEach current.children ≤ depth := by
    refine heightEach_le_iff.mpr ?_
    intro child member
    obtain ⟨index, position, rfl⟩ := List.getElem_of_mem member
    exact (all.get position (all.length_eq ▸ position)).1
  rw [height_eq]
  omega

/-- One round of exploration, given what visits of the operands and the next round come to. -/
theorem exploreRound_finishes {next : Predicate → Run Predicate Unit Predicate} (first : Prop)
    (root : Predicate) (outermost : Bool)
    (visits : ∀ root, ∀ child ∈ current.children, ∀ nodes ledger, Fits nodes ledger → child ∈ nodes →
      Ends (visit root child) ledger (FinishesWithin depth nodes child) stops)
    (quiet : ¬ first → current.kind ≠ .not)
    (goes : current.height ≤ depth + 1 → ∀ nodes ledger node, Fits nodes ledger →
      Reopened current.height first nodes node →
      Ends (next node) ledger (fun result after =>
        Onward Fits nodes after fun wider => Finished current.height wider result) stops)
    (fit : Fits nodes ledger) (present : current ∈ nodes) :
    Ends (exploreRound (normalizing environment) visit root outermost next current) ledger
      (FinishesWithin (depth + 1) nodes current) stops := by
  refine .bind ((visitOperands_finish visits fit present _).imp ?_)
  intro mapped middle outcome
  obtain ⟨within, between, extended, fitted, stillPresent, finished⟩ := outcome
  refine .bind ((rebuild_underway fitted stillPresent quiet finished).imp ?_)
  intro rebuilt after outcome
  obtain ⟨wider, further, fitting, underway⟩ := outcome
  extract_lets callRoot rest
  have explored (ledger : Ledger Predicate Unit) (fit : Fits wider ledger) :
      Ends (rest ()) ledger (FinishesWithin (depth + 1) nodes current) stops := by
    refine .bind ((normalizing_conduct.fixpoint _ rebuilt fit underway).imp ?_)
    intro outcome after reached
    obtain ⟨last, grown, fits, reaches⟩ := reached
    obtain ⟨node, reExploredBy⟩ := outcome
    have whole : nodes ≤ last := (extended.trans further).trans grown
    cases reExploredBy with
    | none =>
      obtain ⟨done, idle⟩ := reaches
      exact .pure ⟨within, last, whole, fits, done.present, normal_of_idle done.ready idle, done.height⟩
    | some rule =>
      refine (goes within last after node fits reaches).imp ?_
      intro result final outcome
      exact ⟨within, outcome.after whole⟩
  by_cases same : sameNode rebuilt current = true
  · simp only [same]
    exact explored after fitting
  · simp only [same]
    exact .bind (.of_eq rfl (explored _ fitting))

/-- A round after the first one reopens nothing. -/
theorem exploreRounds_finishes {limits : Limits} {root : Predicate} {outermost : Bool} (remaining : Nat)
    (visits : ∀ root, ∀ child ∈ current.children, ∀ nodes ledger, Fits nodes ledger → child ∈ nodes →
      Ends (explore (normalizing environment) limits depth root child) ledger
        (FinishesWithin depth nodes child) stops)
    (combines : IsConnectiveKind current.kind) (fit : Fits nodes ledger) (present : current ∈ nodes) :
    Ends (exploreRounds (normalizing environment) limits (explore (normalizing environment) limits depth) root
        outermost remaining current) ledger (FinishesWithin (depth + 1) nodes current) stops := by
  have quiet : ¬ False → current.kind ≠ .not := by
    intro _ same
    rcases combines with isAnd | isOr
    · cases isAnd.symm.trans same
    · cases isOr.symm.trans same
  cases remaining with
  | zero =>
    exact exploreRound_finishes False root outermost visits quiet
      (fun _ _ _ _ _ reopened => False.elim reopened.first) fit present
  | succ =>
    exact exploreRound_finishes False root outermost visits quiet
      (fun _ _ _ _ _ reopened => False.elim reopened.first) fit present

end Round

/-- Exploration finishes with every predicate that is no higher than the levels left, and otherwise
reports the limit. -/
theorem explore_finishes {limits : Limits} (enough : 1 ≤ limits.reExplorations) (depth : Nat)
    (root current : Predicate) {nodes : Set Predicate} {ledger : Ledger Predicate Unit}
    (fit : Fits nodes ledger) (present : current ∈ nodes) :
    Ends (explore (normalizing environment) limits depth root current) ledger
      (FinishesWithin depth nodes current)
      (fun interruption _ => depth < current.height ∧
        interruption = .error (.recursionLimit limits.recursion)) := by
  induction depth generalizing root current nodes ledger with
  | zero => exact ⟨height_pos current, rfl⟩
  | succ depth ih =>
    obtain ⟨remaining, rounds⟩ := Nat.exists_eq_add_of_le' enough
    unfold explore
    rw [rounds]
    refine exploreRound_finishes True root _ ?_ (fun later => False.elim (later trivial)) ?_ fit present
    · intro root child member nodes ledger fit present
      refine (ih root child fit present).mono (fun _ _ finished => finished) ?_
      intro interruption _ stopped
      refine ⟨?_, stopped.2⟩
      have lower := height_le_heightEach member
      rw [height_eq current]
      omega
    · intro within nodes ledger node fit reopened
      refine (exploreRounds_finishes remaining ?_ reopened.combines fit reopened.present).imp ?_
      · intro root child member nodes ledger fit present
        refine (ih root child fit present).mono (fun _ _ finished => finished) ?_
        intro interruption _ stopped
        have lower := height_le_heightEach member
        have upper := reopened.height
        rw [height_eq node] at upper
        omega
      intro result after outcome
      obtain ⟨_, later, extended, fitted, finished⟩ := outcome
      exact ⟨later, extended, fitted, finished.widen reopened.height⟩

/-- Normalization returns if the predicate is no higher than the traversal may go. -/
theorem optimize_returns (environment : Environment) (limits : Limits) (predicate : Predicate)
    (session : Session Unit) (enough : 1 ≤ limits.reExplorations)
    (formed : WellFormed predicate session.supply) (low : predicate.height ≤ limits.recursion) :
    ∃ optimized after, optimize (normalizing environment) limits predicate session = .ok optimized after := by
  have fit : Fits {node | node ∈ Tree.postOrder predicate} { toSession := session } := formed
  have run : Returns (optimize (normalizing environment) limits predicate) session fun _ _ => True := by
    refine .bind (onFreshLedger_ends ((explore_finishes enough limits.recursion predicate predicate fit
      (Tree.root_mem_postOrder predicate)).mono ?_ ?_))
    · intro result after _
      by_cases same : sameNode result predicate = true
      · simp only [same, if_true]
        exact .pure trivial
      · simp only [same]
        exact .pure trivial
    · exact fun _ _ stopped => Nat.not_lt_of_le low stopped.1
  obtain ⟨optimized, after, returned, -⟩ := run.returned
  exact ⟨optimized, after, returned⟩

/-- Normalization is total within its limits: it returns exactly when the predicate is no higher than
the traversal may go, and then with a predicate in normal form; otherwise it reports the limit. -/
theorem optimize_normalizes (environment : Environment) (limits : Limits) (predicate : Predicate)
    (session : Session Unit) (enough : 1 ≤ limits.reExplorations) (formed : WellFormed predicate session.supply) :
    ∃ rules, normalizationRules = .ok rules ∧
      ((predicate.height ≤ limits.recursion ∧
          ∃ optimized after, optimize (setting environment rules) limits predicate session = .ok optimized after ∧
            Normal optimized.value) ∨
        (limits.recursion < predicate.height ∧
          ∃ after, optimize (setting environment rules) limits predicate session =
            .error (.error (.recursionLimit limits.recursion)) after)) := by
  refine ⟨_, normalizationRules_eq, ?_⟩
  have run : Ends (optimize (normalizing environment) limits predicate) session
      (fun optimized _ => predicate.height ≤ limits.recursion ∧ Normal optimized.value)
      (fun interruption _ => limits.recursion < predicate.height ∧
        interruption = .error (.recursionLimit limits.recursion)) := by
    have fit : Fits {node | node ∈ Tree.postOrder predicate} { toSession := session } := formed
    refine .bind (onFreshLedger_ends ((explore_finishes enough limits.recursion predicate predicate fit
      (Tree.root_mem_postOrder predicate)).imp ?_))
    intro result after outcome
    obtain ⟨within, _, _, _, finished⟩ := outcome
    by_cases same : sameNode result predicate = true
    · simp only [same, if_true]
      exact .pure ⟨within, finished.normal⟩
    · simp only [same]
      exact .pure ⟨within, finished.normal⟩
  cases found : optimize (normalizing environment) limits predicate session with
  | ok optimized after =>
    simp only [Ends, found] at run
    exact .inl ⟨run.1, optimized, after, found, run.2⟩
  | error interruption after =>
    simp only [Ends, found] at run
    obtain ⟨beyond, rfl⟩ := run
    exact .inr ⟨beyond, after, found⟩

/-- A negated conjunction, which takes three levels. The negation is pushed down in the first round, and what it becomes
takes a second one; if that is not allowed, then the limit is reported. -/
theorem optimize_normalizes_negated_conjunction :
    let test : Predicate := .isNull ⟨1⟩ (.column ⟨0⟩ ⟨"t"⟩ "a")
    let root : Predicate := .not ⟨3⟩ (.and ⟨2⟩ [test, test])
    1 ≤ ({ recursion := 3, reExplorations := 1 } : Limits).reExplorations ∧ WellFormed root ⟨4⟩ ∧
      ∃ rules, normalizationRules = .ok rules ∧
        (∃ optimized after,
          optimize (setting {} rules) { recursion := 3, reExplorations := 1 } root ⟨⟨4⟩, ()⟩ = .ok optimized after ∧
            Normal optimized.value ∧ optimized.value.agrees (.or ⟨0⟩ [.not ⟨0⟩ test, .not ⟨0⟩ test]) = true) ∧
        ∃ after, optimize (setting {} rules) { recursion := 3, reExplorations := 0 } root ⟨⟨4⟩, ()⟩ =
          .error (.error (.reExplorationLimit 0)) after := by
  intro test root
  have testFormed : WellFormed test ⟨2⟩ := .leaf rfl Nat.one_lt_two
  have conjunctionFormed : WellFormed (Predicate.and ⟨2⟩ [test, test]) ⟨3⟩ :=
    testFormed.parent (by simp [Tree.children, children]) rfl
  have formed : WellFormed root ⟨4⟩ := conjunctionFormed.parent (fun _ => List.mem_singleton) rfl
  have pushed : Returns (optimize (normalizing {}) { recursion := 3, reExplorations := 1 } root) ⟨⟨4⟩, ()⟩
      fun optimized _ => optimized.value.agrees (.or ⟨0⟩ [.not ⟨0⟩ test, .not ⟨0⟩ test]) = true := by
    decide +kernel
  have limited : Ends (optimize (normalizing {}) { recursion := 3, reExplorations := 0 } root) ⟨⟨4⟩, ()⟩
      (fun _ _ => False) fun interruption _ => interruption = .error (.reExplorationLimit 0) := by
    decide +kernel
  obtain ⟨rules, built, outcome⟩ := optimize_normalizes {} { recursion := 3, reExplorations := 1 } root ⟨⟨4⟩, ()⟩
    (Nat.le_refl 1) formed
  obtain rfl := Except.ok.inj (built.symm.trans normalizationRules_eq)
  refine ⟨Nat.le_refl 1, formed, _, built, ?_, ?_⟩
  · rcases outcome with ⟨-, optimized, after, returned, normal⟩ | ⟨beyond, -⟩
    · exact ⟨optimized, after, returned, normal, pushed.at_ok returned⟩
    · exact absurd beyond (by decide)
  · cases found : optimize (normalizing {}) { recursion := 3, reExplorations := 0 } root ⟨⟨4⟩, ()⟩ with
    | ok optimized after => exact (limited.at_ok found).elim
    | error interruption after => exact ⟨after, limited.at_error found ▸ found⟩

end QueryOptimizer.Predicate
