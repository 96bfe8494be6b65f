import QueryOptimizer.Proofs.Rule.Contract

/-!
What a rule promises if all its calls conform to a relation of steps: its promises are those of the steps.
Only whether it answers at all has to be looked up in the rule.
-/
namespace QueryOptimizer
variable {ν ω σ : Type} [Tree ν ω]

/-- Nodes under identities that were handed out are an arena at all times. -/
theorem arena_habitat [LawfulTree ν] :
    SessionHabitat fun (nodes : Set ν) (session : Session σ) => Arena nodes session.supply := by
  refine ⟨fun _ _ arena => arena, ?_⟩
  intro nodes session node mapped arena _ size joined
  refine arena.insert (LawfulTree.identity_copyOver _ _ _) ?_
  rw [LawfulTree.children_copyOver _ _ _ size]
  exact joined

/-- The node is a proper descendant of `current`, or a new node over proper descendants. -/
def Derived (current : ν) (supply : Supply) (node : ν) : Prop :=
  Tree.Below current node ∨
    supply.allocated ≤ (identity node).index ∧ ∀ child ∈ Tree.children node, Tree.Below current child

theorem Derived.builtOver {current node : ν} {supply : Supply} (derived : Derived current supply node) :
    BuiltOver current supply node := by
  rcases derived with below | ⟨new, onto⟩
  · exact .descendant below
  · exact .fresh new fun child member => .descendant (onto child member)

theorem Derived.down {current node : ν} {supply : Supply} (derived : Derived current supply node) :
    ∀ child ∈ Tree.children node, Tree.Below current child := by
  rcases derived with below | ⟨-, onto⟩
  · exact fun child member =>
      below.trans_mem (Tree.child_mem_postOrder (Tree.root_mem_postOrder node) member)
  · exact onto

/-- The answer, if there is one, yields as many nodes as said. -/
abbrev Answering (computation : RuleM σ (Response ν)) (session : Session σ) (count : Nat) : Prop :=
  Returns computation session fun response _ => response.results.length = count

variable [DecidableEq ω]

section Promises
variable {settled : Set ν → Session σ → Prop} {environment : Environment} {rule : SimplificationRule ν ω σ}

/-- Calls that agree on the current node, its bindings and the environment yield equally many nodes. -/
def Alike (settled : Set ν → Session σ → Prop) (environment : Environment) (rule : SimplificationRule ν ω σ) :
    Prop :=
  ∀ nodes others (call twin : Call ν) (session later : Session σ),
    CalledIn settled environment rule nodes call session →
    CalledIn settled environment rule others twin later →
    twin.current = call.current → twin.bindings = call.bindings →
    ∃ count, Answering (rule.action call) session count ∧ Answering (rule.action twin) later count

/-- A rule that never yields the current node only has to yield equally many nodes in equal cases. -/
theorem Alike.contextFree (alike : Alike settled environment rule) (replacing : Replacing settled environment rule) :
    ContextFree settled environment rule := by
  intro nodes others call twin session later called twinCalled sameCurrent sameBindings
  obtain ⟨count, answers, twinAnswers⟩ :=
    alike nodes others call twin session later called twinCalled sameCurrent sameBindings
  refine (answers.and (replacing _ _ _ called)).mono ?_ fun _ _ stopped => stopped.1
  rintro response _ ⟨counted, different⟩
  refine (twinAnswers.and (replacing _ _ _ twinCalled)).mono ?_ fun _ _ stopped => stopped.1
  rintro twinResponse _ ⟨twinCounted, twinDifferent⟩
  rw [List.forall₂_iff_zip]
  refine ⟨counted.trans twinCounted.symm, ?_⟩
  intro node twinNode paired
  rw [Bool.eq_false_iff.mpr (different node (List.of_mem_zip paired).1), ← sameCurrent,
    Bool.eq_false_iff.mpr (twinDifferent twinNode (List.of_mem_zip paired).2)]

end Promises

namespace Conforms
variable {settled : Set ν → Session σ → Prop} {environment : Environment} {rule : SimplificationRule ν ω σ}
variable {reExplore : Bool} {declines : ν → Prop}
variable {step : Table ν Constraint → Session σ → ν → ν → Constraint → Session σ → Prop}
variable (conforms : Conforms environment rule reExplore declines step)
include conforms

theorem yieldsExisting
    (later : ∀ nodes (session after : Session σ), settled nodes session →
      session.supply.allocated ≤ after.supply.allocated → settled nodes after)
    (joins : ∀ nodes session constraints current node constraint after, settled nodes session → current ∈ nodes →
      step constraints session current node constraint after →
        ∃ wider, nodes ⊆ wider ∧ settled wider after ∧ node ∈ wider) :
    YieldsExisting settled environment rule := by
  intro nodes call session called
  refine (conforms call session called.situated called.matched).partly.imp ?_
  intro response after answered
  rcases answered with ⟨empty, more, -⟩ | ⟨node, single, -, taken⟩
  · exact ⟨nodes, subset_rfl, later nodes session after called.settles more, by simp [empty]⟩
  · obtain ⟨wider, included, settles, joined⟩ := joins _ _ _ _ _ _ _ called.settles called.present taken
    exact ⟨wider, included, settles, by simpa [single] using joined⟩

/-- What holds of every step holds of what the rule yields. -/
theorem yields {nodes : Set ν} {call : Call ν} {session : Session σ}
    (called : CalledIn settled environment rule nodes call session) {holds : ν → Prop}
    (steps : ∀ node constraint after, step call.constraints session call.current node constraint after →
      holds node) :
    WhenReturns (rule.action call) session fun response _ =>
      ∀ node ∈ response.results, response.reExplore = reExplore ∧ holds node := by
  refine (conforms call session called.situated called.matched).partly.imp ?_
  intro response after answered
  rcases answered with ⟨empty, -, -⟩ | ⟨node, single, asks, taken⟩
  · simp [empty]
  · simpa [single] using ⟨asks, steps _ _ _ taken⟩

theorem replacing
    (different : ∀ nodes session constraints current node constraint after, settled nodes session →
      current ∈ nodes → step constraints session current node constraint after →
        ¬ sameNode node current = true) :
    Replacing settled environment rule :=
  fun _ _ _ called => (conforms.yields called fun _ _ _ taken =>
    different _ _ _ _ _ _ _ called.settles called.present taken).imp fun _ _ yields node member =>
      (yields node member).2

theorem descending (quiet : reExplore = false)
    (derived : ∀ constraints session current node constraint after,
      step constraints session current node constraint after → Derived current session.supply node) :
    Descending settled environment rule := by
  intro nodes call session called
  refine (conforms.yields called fun _ _ _ taken => derived _ _ _ _ _ _ taken).imp ?_
  intro response _ yields node member
  exact ⟨(yields node member).1.trans quiet, (yields node member).2.builtOver⟩

theorem honest
    (derived : ∀ constraints session current node constraint after,
      step constraints session current node constraint after → Derived current session.supply node) :
    Honest settled environment rule := by
  intro nodes call session called
  refine (conforms.yields called fun _ _ _ taken => derived _ _ _ _ _ _ taken).imp ?_
  exact fun response _ yields => .inr fun node member _ => (yields node member).2.down

/-- A rule that never declines yields one node in all cases. -/
theorem alike (always : ∀ node, ¬ declines node) : Alike settled environment rule := by
  have single (nodes : Set ν) (call : Call ν) (session : Session σ)
      (called : CalledIn settled environment rule nodes call session) :
      Answering (rule.action call) session 1 := by
    refine (conforms call session called.situated called.matched).imp ?_
    intro response after answered
    rcases answered with ⟨-, -, declined⟩ | ⟨node, single, -⟩
    · exact absurd declined (always _)
    · rw [single]
      rfl
  intro nodes others call twin session later called twinCalled _ _
  exact ⟨1, single _ _ _ called, single _ _ _ twinCalled⟩

end Conforms
end QueryOptimizer
