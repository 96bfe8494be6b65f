import QueryOptimizer.Proofs.Rule.Building

/-!
Where rules are called, and with which root. Under rules that only build over what is below the current node, the tree
at a position never has a node in it that is above the position, so that the root of a call is the current node at the
outermost position, and at no other.
-/
namespace QueryOptimizer
variable {ν ω σ τ α β γ : Type} [Tree ν ω]

section Positions

/-- The node stands at a position below the given ones, all of which exist, and none of which is in its tree. -/
structure Placed (above : List ν) (nodes : Set ν) (node : ν) : Prop where
  present : node ∈ nodes
  known : ∀ outer ∈ above, outer ∈ nodes
  apart : ∀ outer ∈ above, outer ∉ Tree.postOrder node

variable {above : List ν} {nodes wider : Set ν} {node : ν} {supply : Supply}

theorem Placed.outermost (present : node ∈ nodes) : Placed [] nodes node :=
  ⟨present, List.forall_mem_nil _, List.forall_mem_nil _⟩

theorem Placed.mono (placed : Placed above nodes node) (included : nodes ⊆ wider) : Placed above wider node :=
  ⟨included placed.present, fun outer member => included (placed.known outer member), placed.apart⟩

theorem Placed.child (placed : Placed above nodes node) (arena : Arena nodes supply) {child : ν}
    (member : child ∈ Tree.children node) : Placed (node :: above) nodes child := by
  refine ⟨arena.closed node placed.present child member, ?_, ?_⟩
  · exact List.forall_mem_cons.mpr ⟨placed.present, placed.known⟩
  · refine List.forall_mem_cons.mpr ⟨fun within => ?_, fun outer higher within => ?_⟩
    · exact Tree.Below.ne ⟨child, member, within⟩ rfl
    · exact placed.apart outer higher (Tree.mem_postOrder_of_child member within)

/-- A node is in its place if it is not itself above that, and has children that are in theirs. -/
theorem Placed.of_children {rebuilt : ν} (present : rebuilt ∈ nodes) (known : ∀ outer ∈ above, outer ∈ nodes)
    (different : ∀ outer ∈ above, outer ≠ rebuilt)
    (below : ∀ child ∈ Tree.children rebuilt, ∀ outer ∈ above, outer ∉ Tree.postOrder child) :
    Placed above nodes rebuilt := by
  refine ⟨present, known, fun outer higher within => ?_⟩
  rcases Tree.mem_postOrder.mp within with same | ⟨child, member, further⟩
  · exact different outer higher same
  · exact below child member outer higher further

/-- A replacement takes the place of its node. -/
theorem Placed.replaced (placed : Placed above nodes node) (arena : Arena nodes supply) (included : nodes ⊆ wider)
    {replacement : ν} (present : replacement ∈ wider) (built : BuiltOver node supply replacement) :
    Placed above wider replacement := by
  refine ⟨present, fun outer higher => included (placed.known outer higher), fun outer higher within => ?_⟩
  -- What is above is not new, and so it could only come in from below the node itself.
  have old := arena.allocated outer (placed.known outer higher)
  exact placed.apart outer higher (built.below_of_old within old).mem_postOrder

theorem Placed.different (placed : Placed above nodes node) (arena : Arena nodes supply) {outer : ν}
    (higher : outer ∈ above) : sameNode outer node = false := by
  rw [Bool.eq_false_iff, ne_eq, sameNode_iff]
  intro same
  have equal := arena.distinct outer (placed.known outer higher) node placed.present same
  exact placed.apart outer higher (equal ▸ Tree.root_mem_postOrder node)

/-- The root is the node itself at the outermost position only. -/
theorem Placed.sameNode_root (placed : Placed above nodes node) (arena : Arena nodes supply) {root : ν}
    (outermost : above = [] → root = node) (rooted : above ≠ [] → root ∈ above) :
    sameNode root node = above.isEmpty := by
  cases above with
  | nil => exact sameNode_iff.mpr (congrArg identity (outermost rfl))
  | cons outer others => exact placed.different arena (rooted (List.cons_ne_nil _ _))

end Positions

/-- All calls are sighted rightly that have the current node as their root at the outermost position, and elsewhere
the given node, which is another one. -/
def Admits (holds : Sighting ν → Prop) (above : List ν) (root : ν) : Prop :=
  ∀ call : Call ν, (above = [] → call.root = call.current) →
    (above ≠ [] → call.root = root ∧ call.isRoot = false) → holds ⟨above, call⟩

/-- The root is the last one of the nodes above, if there are any. -/
def Outermost (above : List ν) (root : ν) : Prop :=
  ∀ outermost, above.getLast? = some outermost → root = outermost

theorem Outermost.mem {above : List ν} {root : ν} (rooted : Outermost above root) (some : above ≠ []) :
    root ∈ above := by
  rw [rooted _ (List.getLast?_eq_some_getLast some)]
  exact List.getLast_mem some

section OwnRoot
variable {above : List ν} {root : ν} (current : ν)

theorem ownRoot_outermost (none : above = []) : (if above.isEmpty then current else root) = current :=
  if_pos (List.isEmpty_iff.mpr none)

theorem ownRoot_inner (some : above ≠ []) : (if above.isEmpty then current else root) = root :=
  if_neg fun none => some (List.isEmpty_iff.mp none)

theorem ownRoot_rooted (rooted : above ≠ [] → root ∈ above) (some : above ≠ []) :
    (if above.isEmpty then current else root) ∈ above := by
  rw [ownRoot_inner current some]
  exact rooted some

theorem Outermost.child (rooted : Outermost above root) :
    Outermost (current :: above) (if above.isEmpty then current else root) := by
  intro outermost last
  rw [List.getLast?_cons, Option.some.injEq] at last
  rw [← last]
  cases found : above.getLast? with
  | none => exact ownRoot_outermost current (List.getLast?_eq_none_iff.mp found)
  | some outer =>
    have inner : above ≠ [] := fun none => by simp [none] at found
    rw [ownRoot_inner current inner]
    exact rooted outer found

/-- Which node is the root does not matter at the outermost position. -/
theorem Admits.own {holds : Sighting ν → Prop} (admits : Admits holds above root) :
    Admits holds above (if above.isEmpty then current else root) := by
  intro call outermost inner
  refine admits call outermost fun some => ?_
  obtain ⟨same, different⟩ := inner some
  exact ⟨same.trans (ownRoot_inner current some), different⟩

end OwnRoot

variable [DecidableEq ω]

/-- What is assumed of rules at all positions: while their calls are sighted rightly, they build as they should. -/
structure Watchful (callOf : γ → Call ν) (nodeOf : β → ν)
    (settingAt : List ν → Setting ν ω (γ → RuleM σ (Response β))) (settled : Set ν → Session σ → Prop)
    (fine : Session σ → Prop) (holds : Sighting ν → Prop) : Prop where
  habitat : SessionHabitat settled
  builds : ∀ above, ∀ rule ∈ (settingAt above).rules.rules,
    BuildsWhile callOf nodeOf settled fine (settingAt above).environment (fun call => holds ⟨above, call⟩) rule
  settles : ∀ nodes session, settled nodes session → fine session

section Drivers
variable (settled : Set ν → Session σ → Prop) (fine : Session σ → Prop)

/-- The run ends with a node in the place, if it returns, and all is fine if it fails. -/
abbrev EndsInPlace (above : List ν) (nodeOf : α → ν) (nodes : Set ν) (run : Run ν σ α) (ledger : Ledger ν σ) : Prop :=
  Ends run ledger
    (fun result after => Onward (fun nodes (ledger : Ledger ν σ) => settled nodes ledger.toSession) nodes after
      fun wider => Placed above wider (nodeOf result))
    fun _ after => fine after.toSession

/-- Whenever the node is in the place, the run ends there. -/
def KeepsPlace (above : List ν) (nodeOf : α → ν) (node : ν) (run : Run ν σ α) : Prop :=
  ∀ nodes (ledger : Ledger ν σ), settled nodes ledger.toSession → Placed above nodes node →
    EndsInPlace settled fine above nodeOf nodes run ledger

variable {settled fine} {settingAt : List ν → Setting ν ω (Call ν → RuleM σ (Response ν))} {holds : Sighting ν → Prop}
variable (watchful : Watchful id id settingAt settled fine holds) {above : List ν} {root current : ν}
include watchful

theorem throw_keepsPlace (nodeOf : α → ν) (interruption : Interruption) :
    KeepsPlace settled fine above nodeOf current (throw interruption : Run ν σ α) :=
  fun nodes ledger settles _ => watchful.settles nodes ledger.toSession settles

/-- A call is sighted rightly, and what it yields can take the place of the current node. -/
theorem callRule_placed (rooted : above ≠ [] → root ∈ above) (admits : Admits holds above root)
    {application : SimplificationRule ν ω σ × Bindings ν}
    (member : application ∈ applications (settingAt above).rules current) {nodes : Set ν} {ledger : Ledger ν σ}
    (settles : settled nodes ledger.toSession) (placed : Placed above nodes current) :
    Ends (callRule (settingAt above).environment application.1 (if above.isEmpty then current else root) current
        application.2) ledger
      (fun yielded? after => Onward (fun nodes (ledger : Ledger ν σ) => settled nodes ledger.toSession) nodes after
        fun wider => Verdict current True (fun yielded => Placed above wider yielded.node) yielded?)
      fun _ after => fine after.toSession := by
  let callRoot := if above.isEmpty then current else root
  have arena := watchful.habitat.arena nodes _ settles
  have callRooted : callRoot ∈ nodes := by
    cases above with
    | nil => exact placed.present
    | cons outer others => exact placed.known root (rooted (List.cons_ne_nil _ _))
  have called := calledIn_of_mem_applications (settingAt above).environment member settles callRooted placed.present
  have sighted :
      holds ⟨above, ledger.call (settingAt above).environment application.1 callRoot current application.2⟩ := by
    refine admits _ (fun outermost => ?_) (fun inner => ?_)
    · exact ownRoot_outermost current outermost
    · have own : callRoot = root := ownRoot_inner current inner
      exact ⟨own, own ▸ placed.different arena (rooted inner)⟩
  refine callRule_takes ((watchful.builds above application.1 (mem_applications.mp member).1.1 nodes _ _
    (called.inert settles) sighted).imp ?_)
  rintro response session ⟨wider, included, settled, yields⟩
  unfold Ledger.Takes
  split
  · exact ⟨wider, included, settled, trivial⟩
  · rename_i node single
    obtain ⟨joined, built⟩ := yields node (by simp [single])
    refine ⟨wider, included, settled, fun _ => trivial, fun different => ?_⟩
    exact placed.replaced arena included joined (built different)
  · exact watchful.settles wider session settled

theorem replaceThen_keepsPlace (rooted : above ≠ [] → root ∈ above) (admits : Admits holds above root)
    {next : ν → Run ν σ (Outcome ν)} (goes : ∀ node, KeepsPlace settled fine above Outcome.node node (next node))
    (current : ν) :
    KeepsPlace settled fine above Outcome.node current
      (replaceThen (settingAt above).environment (settingAt above).rules root above.isEmpty next current) := by
  intro nodes ledger settles placed
  let fits (nodes : Set ν) (ledger : Ledger ν σ) : Prop :=
    settled nodes ledger.toSession ∧ Placed above nodes current
  refine .bind ((firstReplacement_ends fits (fun _ => True) (fun nodes yielded => Placed above nodes yielded.node)
    (settingAt above).environment (if above.isEmpty then current else root) current
    (applications (settingAt above).rules current) ?_ ⟨settles, placed⟩).imp ?_)
  · rintro application member nodes ledger ⟨settles, placed⟩
    refine (callRule_placed watchful rooted admits member settles placed).imp ?_
    rintro yielded? after ⟨wider, extended, settled, verdict⟩
    exact ⟨wider, extended, ⟨settled, placed.mono extended⟩, verdict⟩
  · rintro replacement? middle ⟨between, extended, ⟨settled, placed⟩, found⟩
    cases replacement? with
    | none => exact .pure ⟨between, extended, settled, placed⟩
    | some replacement =>
      obtain ⟨rule, yielded⟩ := replacement
      by_cases asked : yielded.reExplore = true
      · simp only [asked, if_true]
        exact .pure ⟨between, extended, settled, found⟩
      · simp only [asked]
        exact (goes yielded.node between middle settled found).imp fun _ _ reached => reached.after extended

theorem replaceRepeatedly_keepsPlace (rooted : above ≠ [] → root ∈ above) (admits : Admits holds above root)
    (steps : Nat) (current : ν) :
    KeepsPlace settled fine above Outcome.node current
      (replaceRepeatedly (settingAt above).environment (settingAt above).rules root above.isEmpty steps current) := by
  induction steps generalizing current with
  | zero =>
    exact replaceThen_keepsPlace watchful rooted admits (fun _ => throw_keepsPlace watchful _ .outOfSteps) current
  | succ steps ih => exact replaceThen_keepsPlace watchful rooted admits ih current

/-- A fixpoint is driven with the root that its position has. -/
theorem fixpoint_keepsPlace (outermost : above = [] → root = current) (rooted : above ≠ [] → root ∈ above)
    (admits : Admits holds above root) :
    KeepsPlace settled fine above Outcome.node current (fixpoint (settingAt above) root current) := by
  intro nodes ledger settles placed
  unfold fixpoint
  rw [placed.sameNode_root (watchful.habitat.arena nodes _ settles) outermost rooted]
  exact replaceRepeatedly_keepsPlace watchful rooted admits _ current nodes ledger settles placed

/-- The same, as all drivers do it with a node that stands in the place of the current one. -/
theorem fixpoint_ownRoot_keepsPlace (rooted : above ≠ [] → root ∈ above) (admits : Admits holds above root)
    (current : ν) :
    KeepsPlace settled fine above Outcome.node current
      (fixpoint (settingAt above) (if above.isEmpty then current else root) current) :=
  fixpoint_keepsPlace watchful (ownRoot_outermost current) (ownRoot_rooted current rooted) (admits.own current)

/-- Visits of the children of a node leave both the node and the children in their places. -/
theorem children_placed {visit : ν → Run ν σ ν}
    (visits : ∀ child ∈ Tree.children current, KeepsPlace settled fine (current :: above) id child (visit child))
    {nodes : Set ν} {ledger : Ledger ν σ} (settles : settled nodes ledger.toSession)
    (placed : Placed above nodes current) :
    Ends ((Tree.children current).mapM visit) ledger
      (fun results after => Onward (fun nodes (ledger : Ledger ν σ) => settled nodes ledger.toSession) nodes after
        fun wider => Placed above wider current ∧
          List.Forall₂ (fun _ result => Placed (current :: above) wider result) (Tree.children current) results)
      fun _ after => fine after.toSession := by
  let fits (nodes : Set ν) (ledger : Ledger ν σ) : Prop :=
    settled nodes ledger.toSession ∧ Placed above nodes current
  refine (Ends.mapM fits (fun nodes _ result => Placed (current :: above) nodes result)
    (fun _ _ _ _ included held => held.mono included) _ ?_ ⟨settles, placed⟩).imp ?_
  · rintro child member nodes ledger ⟨settles, placed⟩
    have below := placed.child (watchful.habitat.arena nodes _ settles) member
    refine (visits child member nodes ledger settles below).imp ?_
    rintro result after ⟨wider, extended, settled, held⟩
    exact ⟨wider, extended, ⟨settled, placed.mono extended⟩, held⟩
  · rintro results after ⟨wider, extended, ⟨settled, placed⟩, held⟩
    exact ⟨wider, extended, settled, placed, held⟩

variable [LawfulTree ν]

/-- Over children in their places, a node is rebuilt in its place. -/
theorem rebuild_placed {mapped : List ν} {nodes : Set ν} {ledger : Ledger ν σ}
    (settles : settled nodes ledger.toSession) (placed : Placed above nodes current)
    (visited : List.Forall₂ (fun _ child => Placed (current :: above) nodes child) (Tree.children current) mapped) :
    EndsInPlace settled fine above id nodes (Tree.rebuild current mapped : Run ν σ ν) ledger := by
  have arena := watchful.habitat.arena nodes _ settles
  have children := forall_mem_of_forall₂ visited fun _ _ held => held
  have joined : ∀ child ∈ mapped, child ∈ nodes := fun child member => (children child member).present
  refine (arena.rebuild_returns placed.present visited.length_eq joined).mono ?_ fun _ _ => False.elim
  rintro result after ⟨offspring, ⟨rfl, rfl⟩ | ⟨rfl, rfl, -⟩⟩
  · exact ⟨nodes, le_refl nodes, settles, placed⟩
  · have included : nodes ⊆ insert (Tree.copyOver current mapped ledger.supply.draw.1) nodes := Set.subset_insert _ _
    have settled := watchful.habitat.copied nodes ledger.toSession current mapped settles placed.present
      visited.length_eq.symm joined
    refine ⟨_, included, settled, .of_children (Set.mem_insert _ _)
      (fun outer higher => included (placed.known outer higher)) ?_ ?_⟩
    · rintro outer higher rfl
      exact arena.drawn_ne (placed.known _ higher) (LawfulTree.identity_copyOver _ _ _)
    · intro child member outer higher
      exact (children child (offspring ▸ member)).apart outer (List.mem_cons_of_mem _ higher)

theorem renew_placed {mapped : List ν} {nodes : Set ν} {ledger : Ledger ν σ}
    (settles : settled nodes ledger.toSession) (placed : Placed above nodes current)
    (visited : List.Forall₂ (fun _ child => Placed (current :: above) nodes child) (Tree.children current) mapped) :
    EndsInPlace settled fine above id nodes (renew (fun _ _ => pure ()) current mapped) ledger := by
  refine .bind ((rebuild_placed watchful settles placed visited).imp ?_)
  rintro rebuilt after reached
  split
  · exact .pure reached
  · exact .bind (.of_eq rfl (.bind (.pure (.pure reached))))

/-- Simplification calls all rules with the given root, except at the outermost position. -/
theorem simplifyBelow_keepsPlace (admits : ∀ above, Admits holds above root) (outermost : above = [] → root = current)
    (rooted : above ≠ [] → root ∈ above) :
    KeepsPlace settled fine above id current (simplifyBelow settingAt root above current) := by
  induction current using Tree.childInduction generalizing above with
  | step node ih =>
    -- The root that was given is above all other positions, whatever becomes of the node at the outermost one.
    have higher : root ∈ node :: above := by
      by_cases none : above = []
      · exact outermost none ▸ List.mem_cons_self ..
      · exact List.mem_cons_of_mem _ (rooted none)
    intro nodes ledger settles placed
    have position : sameNode node root = above.isEmpty := by
      rw [← placed.sameNode_root (watchful.habitat.arena nodes _ settles) outermost rooted]
      simp only [sameNode, eq_comm]
    rw [simplifyBelow_eq]
    refine .bind ((children_placed watchful (fun child member =>
      ih child member (absurd · (List.cons_ne_nil _ _)) fun _ => higher) settles placed).imp ?_)
    rintro mapped middle ⟨between, extended, settled, placed, visited⟩
    unfold simplifyNode
    refine .bind ((rebuild_placed watchful settled placed visited).imp ?_)
    rintro rebuilt later ⟨wide, further, settled, placed⟩
    simp only [position]
    refine .bind ((fixpoint_ownRoot_keepsPlace watchful rooted (admits above) rebuilt wide later settled placed).imp ?_)
    rintro ⟨result, reExploredBy⟩ after ⟨wider, most, settled, placed⟩
    cases reExploredBy with
    | none => exact .pure ⟨wider, le_trans (le_trans extended further) most, settled, placed⟩
    | some rule => exact watchful.settles wider after.toSession settled

/-- In a round, the root of the children is the node as it is at the start, if that is the outermost one. -/
theorem exploreRound_keepsPlace {visit : ν → ν → Run ν σ ν} {again : ν → Run ν σ ν}
    (visits : ∀ child ∈ Tree.children current,
      KeepsPlace settled fine (current :: above) id child (visit (if above.isEmpty then current else root) child))
    (goes : ∀ node, KeepsPlace settled fine above id node (again node)) (rooted : above ≠ [] → root ∈ above)
    (admits : Admits holds above root) :
    KeepsPlace settled fine above id current
      (exploreRound (settingAt above) visit root above.isEmpty again current) := by
  intro nodes ledger settles placed
  rw [← exploreRoundNoting_silent]
  refine .bind ((children_placed watchful visits settles placed).imp ?_)
  rintro mapped middle ⟨between, extended, settled, placed, visited⟩
  refine .bind ((renew_placed watchful settled placed visited).imp ?_)
  rintro rebuilt later ⟨wide, further, settled, placed⟩
  have whole := le_trans extended further
  refine .bind ((fixpoint_ownRoot_keepsPlace watchful rooted admits rebuilt wide later settled placed).imp ?_)
  rintro ⟨result, reExploredBy⟩ after ⟨wider, most, settled, placed⟩
  cases reExploredBy with
  | none => exact .pure ⟨wider, le_trans whole most, settled, placed⟩
  | some rule =>
    exact (goes result wider after settled placed).imp fun _ _ reached => reached.after (le_trans whole most)

theorem exploreRoundsAt_keepsPlace (limits : Limits) {visit : List ν → ν → ν → Run ν σ ν}
    (visits : ∀ current, ∀ child ∈ Tree.children current, KeepsPlace settled fine (current :: above) id child
      (visit (current :: above) (if above.isEmpty then current else root) child))
    (rooted : above ≠ [] → root ∈ above) (admits : Admits holds above root) (remaining : Nat) (current : ν) :
    KeepsPlace settled fine above id current
      (exploreRoundsAt settingAt limits visit above root above.isEmpty remaining current) := by
  induction remaining generalizing current with
  | zero =>
    exact exploreRound_keepsPlace watchful (visits current) (fun _ => throw_keepsPlace watchful _ _) rooted admits
  | succ remaining ih => exact exploreRound_keepsPlace watchful (visits current) ih rooted admits

/-- Exploration calls all rules with the last of the nodes above, except at the outermost position. -/
theorem exploreAt_keepsPlace (admits : ∀ above root, Outermost above root → Admits holds above root) (limits : Limits)
    (depth : Nat) (outermost : above = [] → root = current) (last : Outermost above root) :
    KeepsPlace settled fine above id current (exploreAt settingAt limits depth above root current) := by
  induction depth generalizing above root current with
  | zero => exact throw_keepsPlace watchful _ _
  | succ depth ih =>
    intro nodes ledger settles placed
    unfold exploreAt
    rw [placed.sameNode_root (watchful.habitat.arena nodes _ settles) outermost last.mem]
    -- A child is visited below the node that the round began with, which may be another one in each round.
    have rounds := exploreRoundsAt_keepsPlace watchful limits
      (fun node child _ => ih (absurd · (List.cons_ne_nil _ _)) (last.child node)) last.mem (admits above root last)
      limits.reExplorations current
    exact rounds nodes ledger settles placed

theorem simplifyAt_fine (admits : ∀ above, Admits holds above root) {nodes : Set ν} {session : Session σ}
    (settles : settled nodes session) (present : root ∈ nodes) : EndsIn (simplifyAt settingAt root) session fine := by
  have fresh : settled nodes (Ledger.mk session (.empty : Table ν Constraint)).toSession := settles
  refine .bind (onFreshLedger_ends ((simplifyBelow_keepsPlace watchful admits (fun _ => rfl) (absurd rfl) nodes _ fresh
    (.outermost present)).imp ?_))
  rintro result after ⟨wider, -, settled, -⟩
  exact .pure (watchful.settles wider after.toSession settled)

theorem optimizeAt_fine (admits : ∀ above root, Outermost above root → Admits holds above root) (limits : Limits)
    {nodes : Set ν} {session : Session σ} (settles : settled nodes session) (present : root ∈ nodes) :
    EndsIn (optimizeAt settingAt limits root) session fine := by
  have fresh : settled nodes (Ledger.mk session (.empty : Table ν Constraint)).toSession := settles
  have alone : Outermost [] root := fun _ absent => nomatch absent
  refine .bind (onFreshLedger_ends ((exploreAt_keepsPlace watchful admits limits limits.recursion (fun _ => rfl) alone
    nodes _ fresh (.outermost present)).imp ?_))
  rintro result after ⟨wider, -, settled, -⟩
  have final := watchful.settles wider after.toSession settled
  dsimp only
  split
  · exact .pure final
  · exact .pure final

end Drivers

section Sightings
variable {settled : Set ν → Session σ → Prop} {holds : Sighting ν → Prop}

theorem sighting_watchful (habitat : SessionHabitat settled) {callOf : γ → Call ν} {nodeOf : β → ν}
    {setting : Setting ν ω (γ → RuleM σ (Response β))}
    (builds : ∀ rule ∈ setting.rules.rules, Builds callOf nodeOf settled setting.environment rule) :
    Watchful callOf nodeOf (fun above => setting.lift (sighting callOf above)) (Sighted settled holds)
      (fun session => ∀ sighting ∈ session.client.2, holds sighting) holds := by
  refine ⟨sighted_habitat habitat, fun above rule member => ?_, fun _ _ fit => fit.2⟩
  obtain ⟨plain, present, rfl⟩ := List.mem_map.mp member
  exact sighting_builds (builds plain present) above

variable {A ρ : Type} {settingAt : List ν → Setting ν ω (ComputationCall ν A ρ → RuleM σ (Response (ν × ρ)))}
variable {fine : Session σ → Prop} (watchful : Watchful ComputationCall.toCall Prod.fst settingAt settled fine holds)
include watchful

theorem recording_watchful (argument : A) :
    Watchful id id
      (fun above => { settingAt above with
        rules := (settingAt above).rules.map (ComputationRule.recording argument) })
      (fun nodes (session : Session (ComputationState ν σ ρ)) => settled nodes (session.view Prod.fst))
      (fun session => fine (session.view Prod.fst)) holds := by
  refine ⟨⟨fun nodes session fit => watchful.habitat.arena nodes _ fit, ?_⟩, fun above rule member => ?_,
    fun nodes session => watchful.settles nodes (session.view Prod.fst)⟩
  · intro nodes session node mapped fit present size joined
    exact watchful.habitat.copied nodes _ node mapped fit present size joined
  · obtain ⟨computing, present, rfl⟩ := List.mem_map.mp member
    exact recording_builds argument (watchful.builds above computing present)

theorem computeAt_fine [LawfulTree ν] (argument : A) {root : ν} (admits : ∀ above, Admits holds above root)
    {nodes : Set ν} {session : Session σ} (settles : settled nodes session) (present : root ∈ nodes) :
    EndsIn (computeAt settingAt argument root) session fine := by
  have fresh : settled nodes (Session.view Prod.fst
      (⟨session.supply, session.client, .empty⟩ : Session (ComputationState ν σ ρ))) := settles
  have simplified := simplifyAt_fine (recording_watchful watchful argument) admits fresh present
  unfold EndsIn Ends computeAt at *
  split at simplified
  · rename_i found
    simp only [found]
    exact simplified
  · rename_i found
    simp only [found]
    exact simplified

end Sightings
end QueryOptimizer
