import QueryOptimizer.Proofs.Rule.Contract
import QueryOptimizer.Proofs.Simplification.Sighting

/-!
Rules that only build over what is below the current node. They still do if their calls are sighted, and if what they
attach to nodes is kept.
-/
namespace QueryOptimizer
variable {ν ω σ τ α β γ : Type} [Tree ν ω]

/-- The rule as far as it decides on what it is called. -/
def Rule.inert (rule : Rule ν ω α) : SimplificationRule ν ω σ :=
  rule.map fun _ _ => pure .nothing

/-- What is yielded exists, the nodes having only become more, and it is the current node or built over descendants
of that. -/
def BuildsUpon (nodeOf : β → ν) (settled : Set ν → Session σ → Prop) (nodes : Set ν) (current : ν) (supply : Supply)
    (response : Response β) (after : Session σ) : Prop :=
  ∃ wider, nodes ⊆ wider ∧ settled wider after ∧ ∀ result ∈ response.results,
    nodeOf result ∈ wider ∧ (¬ sameNode (nodeOf result) current = true → BuiltOver current supply (nodeOf result))

variable [DecidableEq ω]

theorem CalledIn.inert {settled : Set ν → Session σ → Prop} {others : Set ν → Session τ → Prop}
    {environment : Environment} {rule : SimplificationRule ν ω σ} {nodes : Set ν} {call : Call ν}
    {session : Session σ} {later : Session τ} (called : CalledIn settled environment rule nodes call session)
    (settles : others nodes later) : CalledIn others environment rule.inert nodes call later :=
  ⟨settles, called.rooted, called.present, called.named, called.situated, called.offered, called.matched⟩

/-- The rule yields nothing but proper descendants of the current node, new nodes over such descendants, and the
current node itself. What a rule is called with and what it yields may be more than a call and a node. -/
def Builds (callOf : γ → Call ν) (nodeOf : β → ν) (settled : Set ν → Session σ → Prop) (environment : Environment)
    (rule : Rule ν ω (γ → RuleM σ (Response β))) : Prop :=
  ∀ nodes (call : γ) session, CalledIn settled environment rule.inert nodes (callOf call) session →
    WhenReturns (rule.action call) session (BuildsUpon nodeOf settled nodes (callOf call).current session.supply)

/-- The rule builds like that whenever the call is allowed, and leaves a session that is fine if it fails. -/
def BuildsWhile (callOf : γ → Call ν) (nodeOf : β → ν) (settled : Set ν → Session σ → Prop)
    (fine : Session σ → Prop) (environment : Environment) (allowed : Call ν → Prop)
    (rule : Rule ν ω (γ → RuleM σ (Response β))) : Prop :=
  ∀ nodes (call : γ) session, CalledIn settled environment rule.inert nodes (callOf call) session →
    allowed (callOf call) →
      Ends (rule.action call) session (BuildsUpon nodeOf settled nodes (callOf call).current session.supply)
        fun _ after => fine after

section Rules
variable {settled : Set ν → Session σ → Prop} {environment : Environment} {holds : Sighting ν → Prop}

/-- The nodes are settled, and all sightings are of the kind. -/
def Sighted (settled : Set ν → Session σ → Prop) (holds : Sighting ν → Prop) (nodes : Set ν)
    (session : Session (σ × List (Sighting ν))) : Prop :=
  settled nodes (session.view Prod.fst) ∧ ∀ sighting ∈ session.client.2, holds sighting

omit [DecidableEq ω] in
theorem sighted_habitat (habitat : SessionHabitat settled) : SessionHabitat (Sighted settled holds) := by
  refine ⟨fun nodes session fit => habitat.arena nodes _ fit.1, ?_⟩
  rintro nodes session node mapped ⟨settles, all⟩ present size joined
  exact ⟨habitat.copied nodes _ node mapped settles present size joined, all⟩

theorem sighting_builds {callOf : γ → Call ν} {nodeOf : β → ν} {rule : Rule ν ω (γ → RuleM σ (Response β))}
    (builds : Builds callOf nodeOf settled environment rule) (above : List ν) :
    BuildsWhile callOf nodeOf (Sighted settled holds) (fun session => ∀ sighting ∈ session.client.2, holds sighting)
      environment (fun call => holds ⟨above, call⟩) (rule.map (sighting callOf above)) := by
  intro nodes call session called allowed
  obtain ⟨settles, all⟩ := called.settles
  have answers := builds nodes call (session.view Prod.fst) (called.inert settles)
  have sighted : ∀ sighting ∈ session.client.2 ++ [⟨above, callOf call⟩], holds sighting :=
    List.forall_mem_append.mpr ⟨all, List.forall_mem_singleton.mpr allowed⟩
  unfold WhenReturns Ends at answers
  show Ends (sighting callOf above rule.action call) session _ _
  unfold Ends sighting
  cases found : rule.action call (session.view Prod.fst) with
  | ok response after =>
    simp only [found] at answers
    obtain ⟨wider, included, settled, yields⟩ := answers
    exact ⟨wider, included, ⟨settled, sighted⟩, yields⟩
  | error interruption after => exact sighted

/-- Keeping what a rule attaches to its nodes has no influence on what it builds. -/
theorem recording_builds {A ρ : Type} (argument : A) {fine : Session σ → Prop} {allowed : Call ν → Prop}
    {rule : ComputationRule ν ω σ A ρ}
    (builds : BuildsWhile ComputationCall.toCall Prod.fst settled fine environment allowed rule) :
    BuildsWhile id id (fun nodes (session : Session (ComputationState ν σ ρ)) => settled nodes (session.view Prod.fst))
      (fun session => fine (session.view Prod.fst)) environment allowed (ComputationRule.recording argument rule) := by
  intro nodes call session called allow
  let computing : ComputationCall ν A ρ := { call with argument, computed := session.client.2 }
  have answers := builds nodes computing (session.view Prod.fst) (called.inert called.settles) allow
  refine recorded_ends argument (answers.mono ?_ fun _ _ stopped => stopped)
  rintro response after ⟨wider, included, settled, yields⟩
  refine ⟨wider, included, settled, ?_⟩
  intro node member
  obtain ⟨result, yielded, rfl⟩ := List.mem_map.mp member
  exact yields result yielded

/-- A rule that is made to compute builds what it does anyway. -/
theorem Builds.ofSimplification {A ρ : Type} {rule : SimplificationRule ν ω σ}
    (builds : Builds id id settled environment rule) (summary : A → ν → List (Option ρ) → ρ) :
    Builds ComputationCall.toCall Prod.fst settled environment (ComputationRule.ofSimplification summary rule) := by
  intro nodes call session called
  refine .bind ((builds nodes call.toCall session (called.inert called.settles)).imp ?_)
  rintro response after ⟨wider, included, settled, yields⟩
  refine .pure ⟨wider, included, settled, ?_⟩
  intro result member
  obtain ⟨node, yielded, rfl⟩ := List.mem_map.mp member
  exact yields node yielded

end Rules

end QueryOptimizer
