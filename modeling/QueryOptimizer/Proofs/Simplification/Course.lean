import QueryOptimizer.Proofs.Simplification.Fixpoint
import QueryOptimizer.Proofs.Simplification.Noting

/-!
The course that a run takes if it returns, under rules that may do anything else. What is required of a
node before it is driven to a fixpoint is kept by every replacement that is not to be explored again, and
what is required of it afterwards follows once all applications have left it in place.
-/
namespace QueryOptimizer
variable {ν ω σ : Type} [Tree ν ω]

section Copies
variable [LawfulTree ν] {fits : Set ν → Ledger ν σ → Prop} {note : ν → ν → Run ν σ Unit}

/-- Nodes and ledger still fit once a node was copied over other children. -/
def Copies (fits : Set ν → Ledger ν σ → Prop) : Prop :=
  ∀ nodes (ledger : Ledger ν σ) node mapped, fits nodes ledger → node ∈ nodes →
    mapped.length = (Tree.children node).length → (∀ child ∈ mapped, child ∈ nodes) →
      fits (insert (Tree.copyOver node mapped ledger.supply.draw.1) nodes)
        { ledger with supply := ledger.supply.draw.2 }

/-- Nodes and ledger still fit once a node was copied over other children, its constraint was carried over
to the copy, and note was taken of that. -/
def Renews (fits : Set ν → Ledger ν σ → Prop) (note : ν → ν → Run ν σ Unit) : Prop :=
  ∀ nodes (ledger : Ledger ν σ) node mapped, fits nodes ledger → node ∈ nodes →
    mapped.length = (Tree.children node).length → (∀ child ∈ mapped, child ∈ nodes) →
      let copy := Tree.copyOver node mapped ledger.supply.draw.1
      WhenReturns (note node copy)
        { ledger with
          supply := ledger.supply.draw.2
          constraints := carryConstraint ledger.constraints node copy }
        fun _ after => fits (insert copy nodes) after

variable (arena : ∀ nodes ledger, fits nodes ledger → Arena nodes ledger.supply)
include arena

theorem Copies.rebuild (copies : Copies fits) {nodes : Set ν} {ledger : Ledger ν σ} (fit : fits nodes ledger)
    {node : ν} {mapped : List ν} (present : node ∈ nodes)
    (size : (Tree.children node).length = mapped.length) (joined : ∀ child ∈ mapped, child ∈ nodes) :
    Returns (Tree.rebuild node mapped : Run ν σ ν) ledger fun result after =>
      Onward fits nodes after fun wider => result ∈ wider ∧ Tree.children result = mapped := by
  refine ((arena nodes ledger fit).rebuild_returns present size joined).imp ?_
  rintro result after ⟨offspring, ⟨rfl, rfl⟩ | ⟨rfl, rfl, -⟩⟩
  · exact ⟨nodes, le_refl nodes, fit, present, offspring⟩
  · exact ⟨_, Set.subset_insert _ _, copies nodes ledger node mapped fit present size.symm joined,
      Set.mem_insert _ _, offspring⟩

theorem Renews.renew (renews : Renews fits note) {nodes : Set ν} {ledger : Ledger ν σ}
    (fit : fits nodes ledger) {node : ν} {mapped : List ν} (present : node ∈ nodes)
    (size : (Tree.children node).length = mapped.length) (joined : ∀ child ∈ mapped, child ∈ nodes) :
    WhenReturns (renew note node mapped) ledger fun result after =>
      Onward fits nodes after fun wider => result ∈ wider ∧ Tree.children result = mapped := by
  refine .bind (((arena nodes ledger fit).rebuild_returns present size joined).partly.imp ?_)
  rintro result after ⟨offspring, ⟨rfl, rfl⟩ | ⟨rfl, rfl, different⟩⟩
  · simp only [sameNode_iff.mpr rfl, if_true]
    exact .pure ⟨nodes, le_refl nodes, fit, present, offspring⟩
  · simp only [different]
    refine .bind (.of_eq rfl (.bind ((renews nodes ledger node mapped fit present size.symm joined).imp ?_)))
    intro _ after fitted
    exact .pure ⟨_, Set.subset_insert _ _, fitted, Set.mem_insert _ _, offspring⟩

end Copies

variable [DecidableEq ω]

/-- What is assumed of the calls that return, while the nodes fit the ledger: a replacement exists, and
keeps what is required of the nodes under way, and a node that all applications left in place is finished. -/
structure Course (setting : Setting ν ω (Call ν → RuleM σ (Response ν))) (fits : Set ν → Ledger ν σ → Prop)
    (keeps finished : ν → Prop) (inPlace : ν → SimplificationRule ν ω σ × Bindings ν → Prop) : Prop where
  call : ∀ nodes ledger root current, fits nodes ledger → root ∈ nodes → current ∈ nodes → keeps current →
    ∀ application ∈ applications setting.rules current,
      WhenReturns (callRule setting.environment application.1 root current application.2) ledger
        fun yielded? after => Onward fits nodes after fun wider =>
          Verdict current (inPlace current application)
            (fun yielded => yielded.node ∈ wider ∧ (yielded.reExplore = false → keeps yielded.node)) yielded?
  finishes : ∀ node, keeps node → (∀ application ∈ applications setting.rules node, inPlace node application) →
    finished node

/-- What a fixpoint comes to: an existing node, finished unless it is to be explored again. -/
def Arrives (fits : Set ν → Ledger ν σ → Prop) (finished : ν → Prop) (nodes : Set ν) (outcome : Outcome ν)
    (after : Ledger ν σ) : Prop :=
  Onward fits nodes after fun wider =>
    outcome.node ∈ wider ∧ (outcome.reExploredBy = none → finished outcome.node)

section Fixpoint
variable {setting : Setting ν ω (Call ν → RuleM σ (Response ν))} {fits : Set ν → Ledger ν σ → Prop}
variable {keeps finished : ν → Prop} {inPlace : ν → SimplificationRule ν ω σ × Bindings ν → Prop}
variable {root current : ν} {nodes : Set ν} {ledger : Ledger ν σ}

theorem Course.replaceThen (course : Course setting fits keeps finished inPlace) (outermost : Bool)
    (next : ν → Run ν σ (Outcome ν))
    (goes : ∀ node nodes ledger, fits nodes ledger → root ∈ nodes → node ∈ nodes → keeps node →
      WhenReturns (next node) ledger (Arrives fits finished nodes))
    (fit : fits nodes ledger) (rooted : root ∈ nodes) (present : current ∈ nodes) (keep : keeps current) :
    WhenReturns (replaceThen setting.environment setting.rules root outermost next current) ledger
      (Arrives fits finished nodes) := by
  let callRoot := if outermost then current else root
  have callRooted (nodes : Set ν) (rooted : root ∈ nodes) (present : current ∈ nodes) : callRoot ∈ nodes := by
    cases outermost
    · exact rooted
    · exact present
  let fitsHere (nodes : Set ν) (ledger : Ledger ν σ) : Prop := fits nodes ledger ∧ root ∈ nodes ∧ current ∈ nodes
  refine .bind ((firstReplacement_ends fitsHere (inPlace current)
    (fun nodes yielded => yielded.node ∈ nodes ∧ (yielded.reExplore = false → keeps yielded.node))
    setting.environment callRoot current (applications setting.rules current) ?_ ⟨fit, rooted, present⟩).imp ?_)
  · rintro application member nodes ledger ⟨fit, rooted, present⟩
    refine (course.call nodes ledger callRoot current fit (callRooted nodes rooted present) present keep
      application member).imp ?_
    rintro yielded? after ⟨wider, extended, fitted, verdict⟩
    exact ⟨wider, extended, ⟨fitted, extended rooted, extended present⟩, verdict⟩
  · rintro replacement? middle ⟨between, extended, ⟨fitted, rooted, present⟩, found⟩
    cases replacement? with
    | none => exact .pure ⟨between, extended, fitted, present, fun _ => course.finishes current keep found⟩
    | some replacement =>
      obtain ⟨rule, yielded⟩ := replacement
      obtain ⟨joined, kept⟩ := found
      by_cases asked : yielded.reExplore = true
      · simp only [asked, if_true]
        exact .pure ⟨between, extended, fitted, joined, fun absent => nomatch absent⟩
      · simp only [asked]
        exact (goes yielded.node between middle fitted rooted joined (kept (by simpa using asked))).imp
          fun _ _ reached => reached.after extended

theorem Course.replaceRepeatedly (course : Course setting fits keeps finished inPlace) (outermost : Bool)
    (steps : Nat) (fit : fits nodes ledger) (rooted : root ∈ nodes) (present : current ∈ nodes)
    (keep : keeps current) :
    WhenReturns (replaceRepeatedly setting.environment setting.rules root outermost steps current) ledger
      (Arrives fits finished nodes) := by
  induction steps generalizing current nodes ledger with
  | zero => exact course.replaceThen outermost _ (fun _ _ _ _ _ _ _ => trivial) fit rooted present keep
  | succ steps ih =>
    refine course.replaceThen outermost _ ?_ fit rooted present keep
    intro node nodes ledger fit rooted present keep
    exact ih fit rooted present keep

theorem Course.fixpoint (course : Course setting fits keeps finished inPlace) (fit : fits nodes ledger)
    (rooted : root ∈ nodes) (present : current ∈ nodes) (keep : keeps current) :
    WhenReturns (fixpoint setting root current) ledger (Arrives fits finished nodes) :=
  course.replaceRepeatedly _ _ fit rooted present keep

end Fixpoint
section Drivers
variable [LawfulTree ν] {setting : Setting ν ω (Call ν → RuleM σ (Response ν))}
variable {fits : Set ν → Ledger ν σ → Prop}
variable (arena : ∀ nodes ledger, fits nodes ledger → Arena nodes ledger.supply)
include arena

/-- If simplification returns, then with a finished node, provided that a node over finished children meets
what is required of it. -/
theorem Course.simplify {keeps finished : ν → Prop}
    {inPlace : ν → SimplificationRule ν ω σ × Bindings ν → Prop}
    (course : Course setting fits keeps finished inPlace) (copies : Copies fits)
    (ready : ∀ node, (∀ child ∈ Tree.children node, finished child) → keeps node)
    {root : ν} {nodes : Set ν} {session : Session σ} (fit : fits nodes { toSession := session })
    (present : root ∈ nodes) :
    WhenReturns (simplify setting root) session fun simplified after =>
      ∃ wider constraints, nodes ⊆ wider ∧ fits wider { toSession := after, constraints } ∧
        simplified.value ∈ wider ∧ finished simplified.value ∧
        simplified.constraint = collectConstraints constraints simplified.value := by
  let fitsHere (nodes : Set ν) (ledger : Ledger ν σ) : Prop := fits nodes ledger ∧ root ∈ nodes
  refine .bind (onFreshLedger_ends ((Tree.mapPostOrder_ends fitsHere
    (fun nodes _ result => result ∈ nodes ∧ finished result) ?_ root ?_ ⟨fit, present⟩).imp ?_))
  · rintro nodes wider _ result extended ⟨known, done⟩
    exact ⟨extended known, done⟩
  · rintro node within nodes ledger mapped ⟨fit, rooted⟩ visited
    have known := (arena nodes ledger fit).subtree rooted within
    have joined := forall_mem_of_forall₂ visited fun _ _ held => held.1
    have done := forall_mem_of_forall₂ visited fun _ _ held => held.2
    refine .bind ((copies.rebuild arena fit known visited.length_eq joined).partly.imp ?_)
    rintro current middle ⟨between, extended, fitted, arrived, offspring⟩
    have callRooted : (if sameNode node root then current else root) ∈ between := by
      split
      · exact arrived
      · exact extended rooted
    refine .bind ((course.fixpoint fitted callRooted arrived (ready current (offspring ▸ done))).imp ?_)
    rintro ⟨result, reExploredBy⟩ after ⟨wider, further, final, reached, finished⟩
    have whole := le_trans extended further
    cases reExploredBy with
    | none => exact .pure ⟨wider, whole, ⟨final, whole rooted⟩, reached, finished rfl⟩
    | some rule => exact trivial
  · rintro result after ⟨wider, extended, ⟨fitted, -⟩, known, done⟩
    exact .pure ⟨wider, after.constraints, extended, fitted, known, done, rfl⟩

section Explore
variable {note : ν → ν → Run ν σ Unit} {keeps finished : Nat → ν → Prop}
variable {inPlace : ν → SimplificationRule ν ω σ × Bindings ν → Prop}

/-- A round over visited children that are finished finishes its node, or goes on with another one. -/
theorem Course.exploreRound {depth : Nat}
    (course : Course setting fits (keeps (depth + 1)) (finished (depth + 1)) inPlace) (renews : Renews fits note)
    (ready : ∀ node, (∀ child ∈ Tree.children node, finished depth child) → keeps (depth + 1) node)
    {visit : ν → ν → Run ν σ ν}
    (visits : ∀ root child nodes ledger, fits nodes ledger → root ∈ nodes → child ∈ nodes →
      WhenReturns (visit root child) ledger
        fun result after => Onward fits nodes after fun wider => result ∈ wider ∧ finished depth result)
    (outermost : Bool) (again : ν → Run ν σ ν) {root current : ν}
    (goes : ∀ node nodes ledger, fits nodes ledger → root ∈ nodes → node ∈ nodes →
      WhenReturns (again node) ledger
        fun result after => Onward fits nodes after fun wider => result ∈ wider ∧ finished (depth + 1) result)
    {nodes : Set ν} {ledger : Ledger ν σ} (fit : fits nodes ledger) (rooted : root ∈ nodes)
    (present : current ∈ nodes) :
    WhenReturns (exploreRoundNoting setting note visit root outermost again current) ledger
      fun result after => Onward fits nodes after fun wider => result ∈ wider ∧ finished (depth + 1) result := by
  let fitsHere (nodes : Set ν) (ledger : Ledger ν σ) : Prop := fits nodes ledger ∧ root ∈ nodes ∧ current ∈ nodes
  have rootOf (node : ν) (nodes : Set ν) (rooted : root ∈ nodes) (present : node ∈ nodes) :
      (if outermost then node else root) ∈ nodes := by
    cases outermost
    · exact rooted
    · exact present
  have visited : WhenReturns ((Tree.children current).mapM (visit (if outermost then current else root))) ledger
      fun results after => Onward fitsHere nodes after fun wider =>
        List.Forall₂ (fun _ result => result ∈ wider ∧ finished depth result) (Tree.children current) results := by
    refine Ends.mapM fitsHere (fun nodes _ result => result ∈ nodes ∧ finished depth result) ?_ _ ?_
      ⟨fit, rooted, present⟩
    · rintro nodes wider _ result extended ⟨known, done⟩
      exact ⟨extended known, done⟩
    · rintro child member nodes ledger ⟨fit, rooted, present⟩
      refine (visits _ child nodes ledger fit (rootOf current nodes rooted present)
        ((arena nodes ledger fit).closed current present child member)).imp ?_
      rintro result after ⟨wider, extended, fitted, reached⟩
      exact ⟨wider, extended, ⟨fitted, extended rooted, extended present⟩, reached⟩
  refine .bind (visited.imp ?_)
  rintro mapped middle ⟨between, extended, ⟨fitted, rooted, present⟩, visited⟩
  have joined := forall_mem_of_forall₂ visited fun _ _ held => held.1
  have done := forall_mem_of_forall₂ visited fun _ _ held => held.2
  refine .bind ((renews.renew arena fitted present visited.length_eq joined).imp ?_)
  rintro rebuilt later ⟨wide, further, fitting, known, offspring⟩
  have whole := le_trans extended further
  refine .bind ((course.fixpoint fitting (rootOf rebuilt wide (further rooted) known) known
    (ready rebuilt (offspring ▸ done))).imp ?_)
  rintro ⟨result, reExploredBy⟩ after ⟨widest, most, final, reached, finishes⟩
  cases reExploredBy with
  | none => exact .pure ⟨widest, le_trans whole most, final, reached, finishes rfl⟩
  | some rule =>
    exact (goes result widest after final (most (further rooted)) reached).imp
      fun _ _ outcome => outcome.after (le_trans whole most)

/-- Rounds finish their node, if they come to an end. -/
theorem Course.exploreRounds {depth : Nat}
    (course : Course setting fits (keeps (depth + 1)) (finished (depth + 1)) inPlace)
    (renews : Renews fits note)
    (ready : ∀ node, (∀ child ∈ Tree.children node, finished depth child) → keeps (depth + 1) node)
    (limits : Limits) {visit : ν → ν → Run ν σ ν}
    (visits : ∀ root child nodes ledger, fits nodes ledger → root ∈ nodes → child ∈ nodes →
      WhenReturns (visit root child) ledger
        fun result after => Onward fits nodes after fun wider => result ∈ wider ∧ finished depth result)
    (outermost : Bool) (remaining : Nat) {root current : ν} {nodes : Set ν} {ledger : Ledger ν σ}
    (fit : fits nodes ledger) (rooted : root ∈ nodes) (present : current ∈ nodes) :
    WhenReturns (exploreRoundsNoting setting note limits visit root outermost remaining current) ledger
      fun result after => Onward fits nodes after fun wider => result ∈ wider ∧ finished (depth + 1) result := by
  induction remaining generalizing current nodes ledger with
  | zero =>
    exact course.exploreRound arena renews ready visits outermost
      (fun _ => raise (.reExplorationLimit limits.reExplorations)) (fun _ _ _ _ _ _ => True.intro) fit rooted present
  | succ remaining ih =>
    exact course.exploreRound arena renews ready visits outermost _
      (fun _ _ _ fit rooted present => ih fit rooted present) fit rooted present

/-- If exploration returns, then with a finished node, provided that a node over finished children meets
what is required of it. -/
theorem Course.explore (courses : ∀ depth, Course setting fits (keeps depth) (finished depth) inPlace)
    (renews : Renews fits note)
    (ready : ∀ depth node, (∀ child ∈ Tree.children node, finished depth child) → keeps (depth + 1) node)
    (limits : Limits) (depth : Nat) {root current : ν} {nodes : Set ν} {ledger : Ledger ν σ}
    (fit : fits nodes ledger) (rooted : root ∈ nodes) (present : current ∈ nodes) :
    WhenReturns (exploreNoting setting note limits depth root current) ledger
      fun result after => Onward fits nodes after fun wider => result ∈ wider ∧ finished depth result := by
  induction depth generalizing root current nodes ledger with
  | zero => exact True.intro
  | succ depth ih =>
    unfold exploreNoting
    exact (courses (depth + 1)).exploreRounds arena renews (ready depth) limits
      (fun _ _ _ _ fit rooted present => ih fit rooted present) _ _ fit rooted present

end Explore
end Drivers
end QueryOptimizer
