import QueryOptimizer.Proofs.Simplification.Call
import QueryOptimizer.Proofs.Tree.Descent

/-!
What rules may promise of the calls that a driver makes of them, and that keeps to nothing else than
those: the called node and the root exist, and the bindings come from a match of the rule's pattern.
-/
namespace QueryOptimizer
variable {ν ω σ : Type} [Tree ν ω]

/-- What is required of the nodes that exist at a time in a session: they are an arena, and copies of
them over one another can join. -/
structure SessionHabitat (settled : Set ν → Session σ → Prop) : Prop where
  arena : ∀ nodes session, settled nodes session → Arena nodes session.supply
  copied : ∀ nodes (session : Session σ) node mapped, settled nodes session → node ∈ nodes →
    mapped.length = (Tree.children node).length → (∀ child ∈ mapped, child ∈ nodes) →
    settled (insert (Tree.copyOver node mapped session.supply.draw.1) nodes)
      { session with supply := session.supply.draw.2 }

/-- The nodes that can stand in for `current`: its proper descendants, and new nodes over such nodes. -/
inductive BuiltOver (current : ν) (supply : Supply) : ν → Prop where
  | descendant : Tree.Below current node → BuiltOver current supply node
  | fresh : supply.allocated ≤ (identity node).index →
      (∀ child ∈ Tree.children node, BuiltOver current supply child) → BuiltOver current supply node

namespace BuiltOver
variable {current node : ν} {supply : Supply}

/-- Whatever is not new in a tree that is built over the descendants of a node is one of them. -/
theorem below_of_old (built : BuiltOver current supply node) {inner : ν} (within : inner ∈ Tree.postOrder node)
    (old : (identity inner).index < supply.allocated) : Tree.Below current inner := by
  induction built with
  | descendant below => exact below.trans_mem within
  | fresh new _ ih =>
    rcases Tree.mem_postOrder.mp within with rfl | ⟨child, member, further⟩
    · omega
    · exact ih child member further

theorem different {nodes : Set ν} (built : BuiltOver current supply node) (arena : Arena nodes supply)
    (present : current ∈ nodes) : ¬ sameNode node current = true := by
  rw [sameNode_iff]
  intro same
  cases built with
  | descendant below =>
    exact below.ne (arena.distinct _ (arena.subtree present below.mem_postOrder) _ present same)
  | fresh new _ =>
    have old := arena.allocated current present
    rw [← same] at old
    omega

end BuiltOver

variable [DecidableEq ω]

/-- The call is one that a driver can make of the rule while the given nodes exist. -/
structure CalledIn (settled : Set ν → Session σ → Prop) (environment : Environment)
    (rule : SimplificationRule ν ω σ) (nodes : Set ν) (call : Call ν) (session : Session σ) : Prop where
  settles : settled nodes session
  rooted : call.root ∈ nodes
  present : call.current ∈ nodes
  named : call.rule = rule.name
  situated : call.environment = environment
  offered : rule.rootOperator?.all (· = Tree.operator call.current) = true
  matched : call.bindings ∈ rule.pattern.allMatches .empty call.current

/-- The call as the driver makes it is one it can make. -/
theorem calledIn_of_mem_applications {settled : Set ν → Session σ → Prop} (environment : Environment)
    {rules : RuleSet ν ω (Call ν → RuleM σ (Response ν))} {root current : ν}
    {application : SimplificationRule ν ω σ × Bindings ν} (member : application ∈ applications rules current)
    {nodes : Set ν} {ledger : Ledger ν σ} (settles : settled nodes ledger.toSession) (rootPresent : root ∈ nodes)
    (present : current ∈ nodes) :
    CalledIn settled environment application.1 nodes
      (ledger.call environment application.1 root current application.2) ledger.toSession := by
  obtain ⟨⟨-, offered⟩, matched⟩ := mem_applications.mp member
  exact ⟨settles, rootPresent, present, rfl, rfl, offered, matched⟩

section Promises
variable (settled : Set ν → Session σ → Prop) (environment : Environment) (rule : SimplificationRule ν ω σ)

/-- What the rule yields exists: the nodes found before the call have only become more. -/
def YieldsExisting : Prop :=
  ∀ nodes call session, CalledIn settled environment rule nodes call session →
    WhenReturns (rule.action call) session fun response after =>
      ∃ wider, nodes ⊆ wider ∧ settled wider after ∧ ∀ node ∈ response.results, node ∈ wider

/-- The rule never fails, and what it yields depends on nothing but the current node, its bindings and
the environment: whatever else two calls see, either they yield the current node in the same places, and
other nodes in the same places. Identities of new nodes are left open, as are constraints. -/
def ContextFree : Prop :=
  ∀ nodes others (call twin : Call ν) (session later : Session σ),
    CalledIn settled environment rule nodes call session →
    CalledIn settled environment rule others twin later →
    twin.current = call.current → twin.bindings = call.bindings →
    Returns (rule.action call) session fun response _ =>
      Returns (rule.action twin) later fun twinResponse _ =>
        List.Forall₂ (fun node twinNode => sameNode node call.current = sameNode twinNode call.current)
          response.results twinResponse.results

/-- The rule never yields the current node itself. -/
def Replacing : Prop :=
  ∀ nodes call session, CalledIn settled environment rule nodes call session →
    WhenReturns (rule.action call) session fun response _ =>
      ∀ node ∈ response.results, ¬ sameNode node call.current = true

/-- The rule is honest about re-exploration: the nodes it yields, other than the current one, have only
proper descendants of the current node as their children, unless they are to be explored again. -/
def Honest : Prop :=
  ∀ nodes call session, CalledIn settled environment rule nodes call session →
    WhenReturns (rule.action call) session fun response _ => response.reExplore = true ∨
      ∀ node ∈ response.results, ¬ sameNode node call.current = true →
        ∀ child ∈ Tree.children node, Tree.Below call.current child

/-- While the nodes of `base` exist, the watched nodes below what the rule yields are below the current
node already, unless the replacement is to be explored again. -/
def LeadsDown (base watched : Set ν) : Prop :=
  ∀ nodes call session, CalledIn settled environment rule nodes call session → base ⊆ nodes →
    WhenReturns (rule.action call) session fun response _ => response.reExplore = false →
      ∀ node ∈ response.results, ¬ sameNode node call.current = true →
        ∀ inner ∈ watched, Tree.Below node inner → Tree.Below call.current inner

/-- The rule never asks for re-exploration, and yields nothing but proper descendants of the current
node and new nodes over such descendants. -/
def Descending : Prop :=
  ∀ nodes call session, CalledIn settled environment rule nodes call session →
    WhenReturns (rule.action call) session fun response _ =>
      ∀ node ∈ response.results, response.reExplore = false ∧ BuiltOver call.current session.supply node

variable {settled environment rule}

theorem Descending.replacing (habitat : SessionHabitat settled) (descending : Descending settled environment rule) :
    Replacing settled environment rule := by
  intro nodes call session called
  refine (descending nodes call session called).imp ?_
  intro response _ promised node member
  exact (promised node member).2.different (habitat.arena _ _ called.settles) called.present

theorem Honest.leadsDown (honest : Honest settled environment rule) :
    LeadsDown settled environment rule ∅ Set.univ := by
  intro nodes call session called _
  refine (honest nodes call session called).imp ?_
  rintro response _ (asks | down) quiet node member different inner _ ⟨child, present, within⟩
  · exact absurd quiet (by simp [asks])
  · exact (down node member different child present).trans_mem within

theorem Descending.leadsDown (habitat : SessionHabitat settled) (descending : Descending settled environment rule)
    (base : Set ν) : LeadsDown settled environment rule base base := by
  intro nodes call session called included
  refine (descending nodes call session called).imp ?_
  intro response _ promised _ node member _ inner watched below
  have old := (habitat.arena _ _ called.settles).allocated inner (included watched)
  exact (promised node member).2.below_of_old below.mem_postOrder old

end Promises
end QueryOptimizer
