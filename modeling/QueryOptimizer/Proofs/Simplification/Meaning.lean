import QueryOptimizer.Proofs.Simplification.History
import QueryOptimizer.Proofs.Simplification.Provenance

/-!
Where the nodes of an explored tree come from. A node that is explored again stands for a position of the original
tree and not for itself, and so a run is followed for one position at a time: from every node that stands for the
position, exploration leads to a node that stands for it.
-/
namespace QueryOptimizer
variable {ν ω σ β : Type} [Tree ν ω]

/-- The nodes are settled, and the constraints are those recorded, for none but the nodes. -/
structure Tracked (settled : Set ν → Supply → Prop) (world : Set ν × Table ν Constraint) (ledger : Ledger ν σ) :
    Prop where
  settles : settled world.1 ledger.supply
  constraints : world.2 = ledger.constraints
  keyed : Keyed world.1 world.2

/-- The node exists, and stands for a position with the given value. -/
def StandsIn (interpretation : Interpretation ν β) (meaning : Valuation → Option β)
    (world : Set ν × Table ν Constraint) (node : ν) : Prop :=
  node ∈ world.1 ∧ StandsFor interpretation world.2 meaning node

/-- From every node that stands for the position, the run leads to one that stands for it, if it returns. -/
def Upholds (interpretation : Interpretation ν β) (settled : Set ν → Supply → Prop) (meaning : Valuation → Option β)
    (run : ν → Run ν σ ν) : Prop :=
  ∀ world ledger node, Tracked settled world ledger → StandsIn interpretation meaning world node →
    WhenReturns (run node) ledger fun result after =>
      Onward (Tracked settled) world after fun later => StandsIn interpretation meaning later result

variable {interpretation : Interpretation ν β} {settled : Set ν → Supply → Prop} {meaning : Valuation → Option β}
variable {world : Set ν × Table ν Constraint} {ledger : Ledger ν σ}

/-- A node that stands for the position takes its place under the constraint that it was yielded under. -/
theorem Tracked.yielded (fit : Tracked settled world ledger) {wider : Set ν} {session : Session σ} {current node : ν}
    {constraint : Constraint} (included : world.1 ⊆ wider) (settles : settled wider session.supply)
    (joined : node ∈ wider)
    (stands : StandsFor interpretation (attachConstraint ledger.constraints current node constraint) meaning node) :
    Onward (Tracked settled) world (ledger.yielded session current node constraint) fun later =>
      StandsIn interpretation meaning later node := by
  obtain ⟨nodes, constraints⟩ := world
  obtain ⟨-, rfl, keyed⟩ := fit
  exact ⟨(wider, _), ⟨included, Table.le_attach _ _ _ _⟩, ⟨settles, rfl, (keyed.mono included).attach joined⟩, joined,
    stands⟩

theorem StandsIn.mono {later : Set ν × Table ν Constraint} {node : ν}
    (stands : StandsIn interpretation meaning world node) (extended : world ≤ later) :
    StandsIn interpretation meaning later node :=
  ⟨extended.1 stands.1, stands.2.mono extended.2⟩

section Runs
variable [LawfulTree ν] (habitat : Habitat settled)
include habitat

/-- A node that is rebuilt takes over the constraint of the node that it is rebuilt from, and with it the position, if
its children take over those that determine the value there. -/
theorem renew_stands (fit : Tracked settled world ledger) {current : ν} (known : current ∈ world.1)
    {meanings : List (Valuation → Option β)} {mapped : List ν} (size : (Tree.children current).length = mapped.length)
    (below : List.Forall₂ (fun inner result => StandsIn interpretation inner world result) meanings mapped)
    (determined : ∀ valuation, (world.2.recorded current).Holds valuation.parameters →
      ∀ value, meaning valuation = some value →
        ∃ values, meanings.map (fun inner => inner valuation) = values.map some ∧
          interpretation.apply valuation current values = some value) :
    WhenReturns (renew (fun _ _ => pure ()) current mapped) ledger fun result after =>
      Onward (Tracked settled) world after fun later => StandsIn interpretation meaning later result := by
  obtain ⟨nodes, constraints⟩ := world
  obtain ⟨settles, rfl, keyed⟩ := fit
  have arena := habitat.arena _ _ settles
  have joined := forall_mem_of_forall₂ below fun _ _ held => held.1
  have stand := below.imp fun _ _ held => held.2
  refine .bind ((arena.rebuild_returns known size joined).partly.imp ?_)
  rintro result after ⟨operands, ⟨rfl, rfl⟩ | ⟨rfl, rfl, different⟩⟩
  · simp only [sameNode_iff.mpr rfl, if_true]
    exact .pure ⟨_, le_refl _, ⟨settles, rfl, keyed⟩, known, .of_children (operands.symm ▸ stand) determined⟩
  · simp only [different]
    have bare := keyed.get?_copyOver arena current mapped
    let copy := Tree.copyOver current mapped ledger.supply.draw.1
    have grown : ledger.constraints ≤ carryConstraint ledger.constraints current copy :=
      fun _ _ member => (Table.recorded_carry bare).mpr (.inl member)
    refine .bind (.of_eq rfl (.bind (.of_eq rfl (.pure ⟨(insert copy nodes, carryConstraint _ current copy),
      ⟨Set.subset_insert _ _, grown⟩, ⟨?_, rfl, ?_⟩, Set.mem_insert _ _, ?_⟩))))
    · exact habitat.copied _ _ _ _ settles known size.symm joined
    · exact (keyed.mono (Set.subset_insert _ _)).carry (Set.mem_insert _ _)
    · have moved : List.Forall₂ (StandsFor interpretation (carryConstraint ledger.constraints current copy)) meanings
          (Tree.children copy) := by
        rw [show Tree.children copy = mapped from operands]
        exact stand.imp fun _ _ stands => stands.mono grown
      refine .of_children moved ?_
      intro valuation holds value found
      have inherited : (ledger.constraints.recorded current).Holds valuation.parameters :=
        fun condition member => holds condition ((Table.recorded_carry bare).mpr (.inr ⟨rfl, member⟩))
      obtain ⟨values, determines, applied⟩ := determined valuation inherited value found
      exact ⟨values, determines, (interpretation.apply_copyOver ..).trans applied⟩

variable [DecidableEq ω] {setting : Setting ν ω (Call ν → RuleM σ (Response ν))}
variable (conduct : ∀ meaning, Conduct setting (Tracked settled) (StandsIn interpretation meaning)
  (StandsIn interpretation meaning) (fun _ (_ : Ledger ν σ) => True))
include conduct

/-- A round leads on for the position if visits do for those below it, and if further rounds do. -/
theorem exploreRound_upholds {visit : ν → ν → Run ν σ ν}
    (visits : ∀ root inner, Upholds interpretation settled inner (visit root)) (root : ν) (outermost : Bool)
    {again : ν → Run ν σ ν} (goesOn : Upholds interpretation settled meaning again) :
    Upholds interpretation settled meaning (exploreRound setting visit root outermost again) := by
  rintro world ledger current fit ⟨known, stands⟩
  cases stands with
  | intro positions operands below determined =>
    rw [← exploreRoundNoting_silent]
    unfold exploreRoundNoting
    extract_lets childRoot
    let fits (later : Set ν × Table ν Constraint) (ledger : Ledger ν σ) : Prop :=
      Tracked settled later ledger ∧ world ≤ later
    let holds (later : Set ν × Table ν Constraint) (position : (Valuation → Option β) × ν) (result : ν) : Prop :=
      StandsIn interpretation position.1 later result
    have visited : WhenReturns ((Tree.children current).mapM (visit childRoot)) ledger fun mapped after =>
        Onward fits world after fun later => List.Forall₂ (holds later) positions mapped := by
      rw [← operands, List.mapM_map]
      refine Ends.mapM fits holds (fun _ _ _ _ extended held => held.mono extended) positions ?_ ⟨fit, le_refl _⟩
      rintro position member later ledger ⟨fit, extended⟩
      have child : position.2 ∈ Tree.children current := operands ▸ List.mem_map_of_mem member
      have present := (habitat.arena _ _ fit.settles).closed current (extended.1 known) _ child
      have stands := (below position member).mono extended.2
      refine (visits childRoot position.1 later ledger position.2 fit ⟨present, stands⟩).imp ?_
      rintro result after ⟨last, further, fitted, held⟩
      exact ⟨last, further, ⟨fitted, extended.trans further⟩, held⟩
    refine .bind (visited.imp ?_)
    rintro mapped middle ⟨between, -, ⟨fitted, extended⟩, stand⟩
    have size : (Tree.children current).length = mapped.length := by
      rw [← operands, List.length_map, stand.length_eq]
    have renews : WhenReturns (renew (fun _ _ => pure ()) current mapped) middle fun result after =>
        Onward (Tracked settled) between after fun later => StandsIn interpretation meaning later result := by
      refine renew_stands habitat fitted (extended.1 known) size (List.forall₂_map_left_iff.mpr stand) ?_
      intro valuation held value found
      rw [List.map_map]
      exact determined valuation (fun condition member => held condition (extended.2 _ _ member)) value found
    refine .bind (renews.imp ?_)
    rintro rebuilt after ⟨later, further, fitting, renewed⟩
    extract_lets callRoot
    refine .bind (((conduct meaning).fixpoint callRoot rebuilt fitting renewed).imp ?_)
    rintro ⟨node, reExploredBy⟩ last ⟨final, grown, fits, reaches⟩
    have whole : world ≤ final := (extended.trans further).trans grown
    cases reExploredBy with
    | none => exact .pure ⟨final, whole, fits, reaches.1⟩
    | some rule => exact (goesOn final last node fits reaches).imp fun _ _ onward => onward.after whole

theorem exploreRounds_upholds (limits : Limits) {visit : ν → ν → Run ν σ ν}
    (visits : ∀ root inner, Upholds interpretation settled inner (visit root)) (root : ν) (outermost : Bool)
    (remaining : Nat) :
    Upholds interpretation settled meaning (exploreRounds setting limits visit root outermost remaining) := by
  induction remaining with
  | zero => exact exploreRound_upholds habitat conduct visits root outermost fun _ _ _ _ _ => trivial
  | succ remaining ih => exact exploreRound_upholds habitat conduct visits root outermost ih

theorem explore_upholds (limits : Limits) (depth : Nat) (root : ν) :
    Upholds interpretation settled meaning (explore setting limits depth root) := by
  induction depth generalizing root meaning with
  | zero => exact fun _ _ _ _ _ => trivial
  | succ depth ih =>
    intro world ledger current
    exact exploreRounds_upholds habitat conduct limits (fun root _ => ih root) root _ limits.reExplorations world
      ledger current

/-- Whatever optimization returns has, under the returned constraint, the value of the original wherever that has
one. -/
theorem optimize_refines (limits : Limits) {root : ν} {nodes : Set ν} {session : Session σ}
    (settles : settled nodes session.supply) (present : root ∈ nodes) :
    WhenReturns (optimize setting limits root) session fun optimized after =>
      ∃ wider, nodes ⊆ wider ∧ settled wider after.supply ∧ optimized.value ∈ wider ∧
        ∀ valuation, optimized.constraint.Holds valuation.parameters →
          Refines (interpretation.eval valuation root) (interpretation.eval valuation optimized.value) := by
  have fit : Tracked settled (nodes, .empty) { toSession := session } :=
    ⟨settles, rfl, fun node found => absurd (Table.get?_empty node) found⟩
  have stands : StandsFor interpretation .empty (fun valuation => interpretation.eval valuation root) root :=
    .itself root
  refine .bind (onFreshLedger_ends ((explore_upholds habitat conduct limits limits.recursion root _ _ root fit
    ⟨present, stands⟩).imp ?_))
  rintro result after ⟨⟨wider, _⟩, extended, ⟨settles, rfl, -⟩, joined, stands⟩
  by_cases same : sameNode result root = true
  · simp only [same, if_true]
    have unchanged : result = root :=
      (habitat.arena _ _ settles).distinct _ joined _ (extended.1 present) (sameNode_iff.mp same)
    exact .pure ⟨wider, extended.1, settles, joined, fun _ _ => unchanged ▸ fun _ found => found⟩
  · simp only [same]
    refine .pure ⟨wider, extended.1, settles, joined, fun valuation holds => stands.refines ?_⟩
    exact fun inner within condition member => holds condition (mem_collectConstraints.mpr ⟨inner, within, member⟩)

end Runs
end QueryOptimizer
