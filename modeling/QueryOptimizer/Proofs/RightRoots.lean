import QueryOptimizer.Proofs.Simplification.Placement
import QueryOptimizer.Proofs.Term

/-!
Which root rules see. Whether a node is the outermost one is made out again and again, by comparing it to a root that
is itself rebuilt, replaced and explored again, and this never goes wrong.
-/
namespace QueryOptimizer

/-- In simplification and computation, a call at the outermost position has the current node as its root, and any
other call has the root that was given, which is not its current node. So it is in optimization, except that the root
of other calls is the outermost node as it was when the current round began at the outermost position. This holds for
every tree and all rules that yield nothing but proper descendants of the current node and new nodes over such
descendants, and of every call of a run, whether the run returns or fails. The drivers that tell positions apart do
what drivers do, and rules that are sighted do what they do otherwise. -/
theorem rules_see_the_right_root {ν ω σ A ρ : Type} [Tree ν ω] [LawfulTree ν] [DecidableEq ω]
    {settled : Set ν → Session σ → Prop} (habitat : SessionHabitat settled) {nodes : Set ν} {session : Session σ}
    (settles : settled nodes session) {root : ν} (present : root ∈ nodes) :
    (∀ setting : Setting ν ω (Call ν → RuleM σ (Response ν)),
      simplifyAt (fun _ => setting) root = simplify setting root ∧
      (∀ limits, optimizeAt (fun _ => setting) limits root = optimize setting limits root) ∧
      ((∀ rule ∈ setting.rules.rules, Builds id id settled setting.environment rule) →
        (∃ sightings,
          simplifyAt (fun above => setting.lift (sighting id above)) root (session.withSightings []) =
            endSeen (fun after => after.withSightings sightings) (simplify setting root session) ∧
          ∀ sighting ∈ sightings,
            (sighting.above = [] → sighting.call.root = sighting.call.current) ∧
            (sighting.above ≠ [] → sighting.call.root = root ∧ sighting.call.isRoot = false)) ∧
        ∀ limits, ∃ sightings,
          optimizeAt (fun above => setting.lift (sighting id above)) limits root (session.withSightings []) =
            endSeen (fun after => after.withSightings sightings) (optimize setting limits root session) ∧
          ∀ sighting ∈ sightings,
            (sighting.above = [] → sighting.call.root = sighting.call.current) ∧
            ∀ outermost, sighting.above.getLast? = some outermost →
              sighting.call.root = outermost ∧ sighting.call.isRoot = false)) ∧
    ∀ (setting : Setting ν ω (ComputationCall ν A ρ → RuleM σ (Response (ν × ρ)))) (argument : A),
      computeAt (fun _ => setting) argument root = compute setting argument root ∧
      ((∀ rule ∈ setting.rules.rules, Builds ComputationCall.toCall Prod.fst settled setting.environment rule) →
        ∃ sightings,
          computeAt (fun above => setting.lift (sighting ComputationCall.toCall above)) argument root
              (session.withSightings []) =
            endSeen (fun after => after.withSightings sightings) (compute setting argument root session) ∧
          ∀ sighting ∈ sightings,
            (sighting.above = [] → sighting.call.root = sighting.call.current) ∧
            (sighting.above ≠ [] → sighting.call.root = root ∧ sighting.call.isRoot = false)) := by
  let givenRoot (sighting : Sighting ν) : Prop :=
    (sighting.above = [] → sighting.call.root = sighting.call.current) ∧
      (sighting.above ≠ [] → sighting.call.root = root ∧ sighting.call.isRoot = false)
  let lastRoot (sighting : Sighting ν) : Prop :=
    (sighting.above = [] → sighting.call.root = sighting.call.current) ∧
      ∀ outermost, sighting.above.getLast? = some outermost →
        sighting.call.root = outermost ∧ sighting.call.isRoot = false
  have given (above : List ν) : Admits givenRoot above root := fun call outermost inner => ⟨outermost, inner⟩
  have last (above : List ν) (root : ν) (rooted : Outermost above root) : Admits lastRoot above root := by
    refine fun call outermost inner => ⟨outermost, fun outer found => ?_⟩
    have some : above ≠ [] := fun none => by simp [none] at found
    obtain ⟨same, different⟩ := inner some
    exact ⟨same.trans (rooted outer found), different⟩
  have fresh (holds : Sighting ν → Prop) : Sighted settled holds nodes (session.withSightings []) :=
    ⟨settles, List.forall_mem_nil _⟩
  refine ⟨fun setting => ⟨simplifyAt_everywhere setting root, fun limits => optimizeAt_everywhere setting limits root,
    fun builds => ?_⟩, fun setting argument => ⟨computeAt_everywhere setting argument root, fun builds => ?_⟩⟩
  · have lifts (above : List ν) : ∀ rule ∈ setting.rules.rules, ∀ call,
        Projects (Session.view Prod.fst) (sighting id above rule.action call) (id rule.action call) :=
      fun rule _ => sighting_projects id above rule.action
    refine ⟨?_, fun limits => ?_⟩
    · have projects := simplifyAt_projects lifts root
      rw [setting.lift_id] at projects
      exact projects.sighted (simplifyAt_fine (sighting_watchful habitat builds) given (fresh givenRoot) present)
    · have projects := optimizeAt_projects lifts limits root
      rw [setting.lift_id] at projects
      exact projects.sighted (optimizeAt_fine (sighting_watchful habitat builds) last limits (fresh lastRoot) present)
  · have lifts (above : List ν) : ∀ rule ∈ setting.rules.rules, ∀ call, Projects (Session.view Prod.fst)
        (sighting ComputationCall.toCall above rule.action call) (id rule.action call) :=
      fun rule _ => sighting_projects ComputationCall.toCall above rule.action
    have projects := computeAt_projects argument lifts root
    rw [setting.lift_id] at projects
    exact projects.sighted (computeAt_fine (sighting_watchful habitat builds) argument given (fresh givenRoot) present)

namespace Term

/-- The rule that replaces an operator called "wrap" by its first argument, which is to be explored again. -/
def unwrap : SimplificationRule Term String Unit where
  name := "Unwrap"
  pattern := .any none
  action call :=
    match call.current with
    | .apply _ "wrap" (inner :: _) => return Response.nothing.yieldAndReExplore inner
    | _ => return .nothing

theorem unwrap_builds (environment : Environment) : Builds id id Settled environment unwrap := by
  intro nodes call session called
  simp only [unwrap]
  split
  · rename_i inner rest wrapped
    have child : inner ∈ Tree.children call.current := by
      rw [wrapped]
      exact List.mem_cons_self ..
    refine .pure ⟨nodes, subset_rfl, called.settles, List.forall_mem_singleton.mpr ⟨?_, fun _ => ?_⟩⟩
    · exact called.settles.closed call.current called.present inner child
    · exact .descendant (Tree.below_of_child child)
  · exact .pure ⟨nodes, subset_rfl, called.settles, List.forall_mem_nil _⟩

theorem rename_builds (environment : Environment) (name source target : String) :
    Builds id id Settled environment (rename name source target) := by
  intro nodes call session called
  let node : Term := .apply session.supply.draw.1 target call.current.arguments
  have below : ∀ child ∈ Tree.children node, child ∈ Tree.children call.current := fun _ member => member
  refine .of_eq rfl ⟨insert node nodes, Set.subset_insert _ _, Arena.insert called.settles rfl ?_, ?_⟩
  · exact fun child member => called.settles.closed call.current called.present child (below child member)
  · exact List.forall_mem_singleton.mpr ⟨Set.mem_insert _ _, fun _ =>
      .fresh (Nat.le_refl _) fun child member => .descendant (Tree.below_of_child (below child member))⟩

end Term

/-- A term is rewritten in its innermost node, rebuilt, and unwrapped. The other drivers fail at this, but optimization
goes on with another outermost node, which is the root of all calls from then on. -/
theorem rules_see_the_right_root_wrapped_term :
    let root : Term := .apply ⟨2⟩ "wrap" [.apply ⟨1⟩ "h" [.apply ⟨0⟩ "f" []]]
    let setting : Setting Term String (Call Term → RuleM Unit (Response Term)) :=
      ⟨{}, ⟨[Term.rename "Rename" "f" "g", Term.unwrap]⟩, fun _ => 2⟩
    let computing := setting.computing fun (_ : Unit) _ (results : List (Option Nat)) => 1 + results.length
    let session : Session Unit := ⟨⟨3⟩, ()⟩
    let view (sighting : Sighting Term) : List NodeId × NodeId × NodeId :=
      (sighting.above.map identity, identity sighting.call.root, identity sighting.call.current)
    let firstRound : List (List NodeId × NodeId × NodeId) :=
      [([⟨1⟩, ⟨2⟩], ⟨2⟩, ⟨0⟩), ([⟨1⟩, ⟨2⟩], ⟨2⟩, ⟨3⟩), ([⟨2⟩], ⟨2⟩, ⟨4⟩), ([], ⟨5⟩, ⟨5⟩)]
    WellFormed root session.supply ∧
      (∀ rule ∈ setting.rules.rules, Builds id id Term.Settled {} rule) ∧
      (∀ rule ∈ computing.rules.rules, Builds ComputationCall.toCall Prod.fst Term.Settled {} rule) ∧
      (∃ sightings,
        simplifyAt (fun above => setting.lift (sighting id above)) root (session.withSightings []) =
          endSeen (fun after => after.withSightings sightings) (simplify setting root session) ∧
        sightings.map view = firstRound) ∧
      (∃ sightings,
        optimizeAt (fun above => setting.lift (sighting id above)) {} root (session.withSightings []) =
          endSeen (fun after => after.withSightings sightings) (optimize setting {} root session) ∧
        sightings.map view = firstRound ++ [([⟨4⟩], ⟨4⟩, ⟨3⟩), ([], ⟨4⟩, ⟨4⟩)]) ∧
      ∃ sightings,
        computeAt (fun above => computing.lift (sighting ComputationCall.toCall above)) () root
            (session.withSightings []) =
          endSeen (fun after => after.withSightings sightings) (compute computing () root session) ∧
        sightings.map view = firstRound := by
  intro root setting computing session view firstRound
  have innermost : WellFormed (Term.apply ⟨0⟩ "f" []) ⟨1⟩ := .leaf rfl Nat.zero_lt_one
  have inner : WellFormed (Term.apply ⟨1⟩ "h" [.apply ⟨0⟩ "f" []]) ⟨2⟩ :=
    innermost.parent (fun _ => List.mem_singleton) rfl
  have formed : WellFormed root session.supply := inner.parent (fun _ => List.mem_singleton) rfl
  have builds : ∀ rule ∈ setting.rules.rules, Builds id id Term.Settled {} rule := by
    refine List.forall_mem_cons.mpr ⟨?_, List.forall_mem_singleton.mpr (Term.unwrap_builds {})⟩
    exact Term.rename_builds {} "Rename" "f" "g"
  have computes : ∀ rule ∈ computing.rules.rules,
      Builds ComputationCall.toCall Prod.fst Term.Settled {} rule := by
    intro rule member
    obtain ⟨plain, present, rfl⟩ := List.mem_map.mp member
    exact (builds plain present).ofSimplification _
  obtain ⟨drives, computed⟩ :=
    rules_see_the_right_root arena_habitat formed (Tree.root_mem_postOrder root)
  obtain ⟨-, -, sighted⟩ := drives setting
  obtain ⟨⟨simplified, simplifies, -⟩, optimized⟩ := sighted builds
  obtain ⟨explored, optimizes, -⟩ := optimized {}
  obtain ⟨attached, ran, -⟩ := (computed computing ()).2 computes
  refine ⟨formed, builds, computes, ⟨simplified, simplifies, ?_⟩, ⟨explored, optimizes, ?_⟩, attached, ran, ?_⟩
  · rw [← sightingsOf_endSeen simplified (simplify setting root session), ← simplifies]
    simp only [simplifyAt, simplifyBelow_eq, root, Tree.children, Term.arguments, List.mapM_cons, List.mapM_nil]
    decide +kernel
  · rw [← sightingsOf_endSeen explored (optimize setting {} root session), ← optimizes]
    decide +kernel
  · rw [← sightingsOf_endSeen attached (compute computing () root session), ← ran]
    simp only [computeAt, simplifyAt, simplifyBelow_eq, root, Tree.children, Term.arguments, List.mapM_cons,
      List.mapM_nil]
    decide +kernel

end QueryOptimizer
