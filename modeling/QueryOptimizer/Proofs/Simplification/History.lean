import Mathlib
import QueryOptimizer.Proofs.Simplification.Course
import QueryOptimizer.Proofs.Simplification.Projection
import QueryOptimizer.Proofs.Simplification.Stability

/-!
The history of a run: one after the other, the nodes that were put in place of others, by the rules and by
rebuilding. A node always has the conditions of all that led to it recorded.
-/
namespace QueryOptimizer

/-- One node was put in place of another, under a constraint of this step alone. -/
structure Event (ν : Type) where
  source : ν
  target : ν
  constraint : Constraint

/-- What happened, oldest events first. -/
abbrev History (ν : Type) := List (Event ν)

variable {ν ω σ : Type} [Tree ν ω]

/-- Each event goes on from the very node that the one before led to. -/
def Linked (events : History ν) : Prop :=
  events.IsChain fun earlier later => sameNode earlier.target later.source = true

/-- For each node, the conditions of all events are recorded by which nodes passed into it. -/
def Retains (constraints : Table ν Constraint) (history : History ν) : Prop :=
  ∀ earlier last, (earlier ++ [last]).Sublist history → Linked (earlier ++ [last]) →
    ∀ event ∈ earlier ++ [last], ∀ condition ∈ event.constraint.conditions,
      condition ∈ (constraints.recorded last.target).conditions

theorem Retains.start (constraints : Table ν Constraint) : Retains constraints [] :=
  fun _ _ within => absurd (List.sublist_nil.mp within) (by simp)

/-- One more event keeps what is retained, if its target gets the conditions of its source and its own. -/
theorem Retains.step {constraints later : Table ν Constraint} {history : History ν} {event : Event ν}
    (retains : Retains constraints history) (grown : constraints ≤ later)
    (inherits : ∀ condition, condition ∈ (constraints.recorded event.source).conditions ∨
      condition ∈ event.constraint.conditions → condition ∈ (later.recorded event.target).conditions) :
    Retains later (history ++ [event]) := by
  intro earlier last within linked inner member condition required
  obtain ⟨old, new, whole, oldWithin, newWithin⟩ := List.sublist_append_iff.mp within
  rcases List.sublist_singleton.mp newWithin with rfl | rfl
  · rw [List.append_nil] at whole
    exact grown _ _ (retains earlier last (whole ▸ oldWithin) linked inner member condition required)
  · obtain ⟨rfl, single⟩ := List.append_inj' whole rfl
    obtain rfl := List.singleton_inj.mp single
    apply inherits
    rcases List.mem_append.mp member with before | now
    · left
      obtain rfl | ⟨rest, previous, rfl⟩ := earlier.eq_nil_or_concat'
      · cases before
      · -- The events before lead to the node that the new one starts from.
        obtain ⟨passed, -, link⟩ := List.isChain_append.mp linked
        have same : identity previous.target = identity last.source :=
          sameNode_iff.mp (link previous (by simp) last (by simp))
        rw [← Table.recorded_of_sameNode same]
        exact retains rest previous oldWithin passed inner before condition required
    · right
      rwa [List.mem_singleton.mp now] at required

/-- The constraint under which a tree is returned has the conditions of all events by which nodes passed into
a node of the tree. -/
def Retained (history : History ν) (returned : Constrained ν) : Prop :=
  ∀ earlier last, (earlier ++ [last]).Sublist history → Linked (earlier ++ [last]) →
    (∃ node ∈ Tree.postOrder returned.value, sameNode last.target node = true) →
      ∀ event ∈ earlier ++ [last], ∀ condition ∈ event.constraint.conditions,
        condition ∈ returned.constraint.conditions

theorem Retains.collected {constraints : Table ν Constraint} {history : History ν}
    (retains : Retains constraints history) (root : ν) :
    Retained history ⟨root, collectConstraints constraints root⟩ := by
  rintro earlier last within linked ⟨node, present, same⟩ event member condition required
  refine mem_collectConstraints.mpr ⟨node, present, ?_⟩
  rw [← Table.recorded_of_sameNode (sameNode_iff.mp same)]
  exact retains earlier last within linked event member condition required

/-- What a driver accepts of an answer: a single node. -/
def accepted (current : ν) (response : Response ν) : History ν :=
  match response.results with
  | [node] => [⟨current, node, response.constraint⟩]
  | _ => []

def Session.withHistory (session : Session σ) (history : History ν) : Session (σ × History ν) :=
  ⟨session.supply, session.client, history⟩

theorem Session.view_withHistory (session : Session σ) (history : History ν) :
    (session.withHistory history).view Prod.fst = session :=
  rfl

/-- The action of a rule for a client that also keeps a history of what is accepted from its rules. -/
def logging (action : Call ν → RuleM σ (Response ν)) (call : Call ν) : RuleM (σ × History ν) (Response ν) :=
  fun session =>
    let history := session.client.2
    match action call (session.view Prod.fst) with
    | .ok response after => .ok response (after.withHistory (history ++ accepted call.current response))
    | .error interruption after => .error interruption (after.withHistory history)

/-- Keeps a rebuilt node in the history. -/
def logRebuilt (current rebuilt : ν) : Run ν (σ × History ν) Unit :=
  modify fun ledger => { ledger with
    client := (ledger.client.1, ledger.client.2 ++ [⟨current, rebuilt, .none⟩]) }

theorem logging_projects (action : Call ν → RuleM σ (Response ν)) (call : Call ν) :
    Projects (Session.view Prod.fst) (logging action call) (action call) := by
  intro session
  unfold Ends logging
  cases found : action call (session.view Prod.fst) with
  | ok response after => rfl
  | error interruption after => rfl

theorem logRebuilt_projects (current rebuilt : ν) :
    Projects (Ledger.view Prod.fst) (logRebuilt current rebuilt : Run ν (σ × History ν) Unit)
      (pure () : Run ν σ Unit) :=
  fun _ => rfl

/-- An answer to a client that keeps a history is an answer, and what is accepted of it was added. -/
theorem logging_answered {action : Call ν → RuleM σ (Response ν)} {call : Call ν}
    {session after : Session (σ × History ν)} {response : Response ν}
    (found : logging action call session = .ok response after) :
    ∃ final, action call (session.view Prod.fst) = .ok response final ∧
      after = final.withHistory (session.client.2 ++ accepted call.current response) := by
  unfold logging at found
  split at found
  · rename_i answered
    cases found
    exact ⟨_, answered, rfl⟩
  · cases found

/-- Constraints are recorded for none but the given nodes. -/
def Keyed (nodes : Set ν) (constraints : Table ν Constraint) : Prop :=
  ∀ node, constraints.get? node ≠ none → ∃ member ∈ nodes, identity member = identity node

namespace Keyed
variable {nodes wider : Set ν} {constraints : Table ν Constraint} {current node : ν} {constraint : Constraint}

theorem mono (keyed : Keyed nodes constraints) (included : nodes ⊆ wider) : Keyed wider constraints := by
  intro node found
  obtain ⟨member, there, same⟩ := keyed node found
  exact ⟨member, included there, same⟩

theorem attach (keyed : Keyed nodes constraints) (there : node ∈ nodes) :
    Keyed nodes (attachConstraint constraints current node constraint) := by
  intro other found
  by_cases same : identity node = identity other
  · exact ⟨node, there, same⟩
  · exact keyed other (Table.get?_attach_of_ne same ▸ found)

theorem carry (keyed : Keyed nodes constraints) (there : node ∈ nodes) :
    Keyed nodes (carryConstraint constraints current node) := by
  intro other found
  by_cases same : identity node = identity other
  · exact ⟨node, there, same⟩
  · exact keyed other (Table.get?_carry_of_ne same ▸ found)

/-- Nothing is recorded for a new copy of a node. -/
theorem get?_copyOver [LawfulTree ν] (keyed : Keyed nodes constraints) {supply : Supply} (arena : Arena nodes supply)
    (node : ν) (mapped : List ν) : constraints.get? (Tree.copyOver node mapped supply.draw.1) = none := by
  by_contra found
  obtain ⟨member, there, same⟩ := keyed _ found
  exact arena.drawn_ne there (same.trans (LawfulTree.identity_copyOver ..))

end Keyed

section Rebuilding
variable {settled : Set ν → Session σ → Prop}

/-- The nodes are settled, constraints are recorded for none but those, and they retain the history. -/
structure Chronicled (settled : Set ν → Session σ → Prop) (nodes : Set ν) (ledger : Ledger ν (σ × History ν)) :
    Prop where
  settles : settled nodes (ledger.toSession.view Prod.fst)
  keyed : Keyed nodes ledger.constraints
  retains : Retains ledger.constraints ledger.client.2

theorem Chronicled.start {nodes : Set ν} {session : Session σ} (settles : settled nodes session) :
    Chronicled settled nodes { toSession := session.withHistory [] } :=
  ⟨settles, fun node found => absurd (Table.get?_empty node) found, .start _⟩

variable (habitat : SessionHabitat settled)
include habitat

theorem Chronicled.arena {nodes : Set ν} {ledger : Ledger ν (σ × History ν)}
    (fit : Chronicled settled nodes ledger) : Arena nodes ledger.supply :=
  habitat.arena nodes (ledger.toSession.view Prod.fst) fit.settles

theorem chronicled_copies : Copies (Chronicled settled : Set ν → Ledger ν (σ × History ν) → Prop) := by
  rintro nodes ledger node mapped ⟨settles, keyed, retains⟩ present size joined
  exact ⟨habitat.copied nodes (ledger.toSession.view Prod.fst) node mapped settles present size joined,
    keyed.mono (Set.subset_insert _ _), retains⟩

variable [LawfulTree ν]

/-- A rebuilt node is new, so that nothing is lost by recording for it what is recorded for the node that it
was rebuilt from. -/
theorem chronicled_renews :
    Renews (Chronicled settled : Set ν → Ledger ν (σ × History ν) → Prop) logRebuilt := by
  rintro nodes ledger node mapped ⟨settles, keyed, retains⟩ present size joined
  have bare : ledger.constraints.get? (Tree.copyOver node mapped ledger.supply.draw.1) = none :=
    keyed.get?_copyOver (habitat.arena _ _ settles) node mapped
  refine .of_eq rfl ⟨habitat.copied nodes (ledger.toSession.view Prod.fst) node mapped settles present size joined,
    (keyed.mono (Set.subset_insert _ _)).carry (Set.mem_insert _ _), ?_⟩
  refine retains.step (fun _ _ member => (Table.recorded_carry bare).mpr (.inl member)) ?_
  rintro condition (inherited | own)
  · exact (Table.recorded_carry bare).mpr (.inr ⟨rfl, inherited⟩)
  · exact absurd own Constraint.not_mem_none

end Rebuilding
section Runs
variable [DecidableEq ω] {setting : Setting ν ω (Call ν → RuleM σ (Response ν))} {settled : Set ν → Session σ → Prop}

/-- Every accepted call adds its event, and its node gets the conditions that this event requires. -/
theorem chronicled_course
    (existing : ∀ rule ∈ setting.rules.rules, YieldsExisting settled setting.environment rule) :
    Course (setting.lift logging) (Chronicled settled) (fun _ => True) (fun _ => True) (fun _ _ => True) := by
  refine ⟨?_, fun _ _ _ => trivial⟩
  rintro nodes ledger root current ⟨settles, keyed, retains⟩ rooted present - application member
  rw [show (setting.lift logging).rules = setting.rules.map (Rule.map logging) from rfl, applications_lift] at member
  obtain ⟨tried, triedMember, rfl⟩ := List.mem_map.mp member
  have settlesSeen : settled nodes (ledger.view Prod.fst).toSession := settles
  have called := calledIn_of_mem_applications setting.environment triedMember settlesSeen rooted present
  refine (callRule_answered setting.environment _ root current tried.2 ledger).imp ?_
  rintro yielded? after ⟨response, session, found, answer⟩
  obtain ⟨final, answered, rfl⟩ := logging_answered found
  obtain ⟨wider, included, settlesAfter, joined⟩ :=
    (existing _ (mem_applications.mp triedMember).1.1 _ _ _ called).at_ok answered
  rcases answer with ⟨empty, rfl, rfl⟩ | ⟨node, single, rfl, rfl⟩
  · have nothing : accepted current response = [] := by
      simp only [accepted, empty]
    refine ⟨wider, included, ⟨settlesAfter, keyed.mono included, ?_⟩, trivial⟩
    show Retains ledger.constraints (ledger.client.2 ++ accepted current response)
    rwa [nothing, List.append_nil]
  · have event : accepted current response = [⟨current, node, response.constraint⟩] := by
      simp only [accepted, single]
    have there := joined node (by simp [single])
    refine ⟨wider, included, ⟨settlesAfter, (keyed.mono included).attach there, ?_⟩, fun _ => trivial,
      fun _ => ⟨there, fun _ => trivial⟩⟩
    show Retains (attachConstraint ledger.constraints current node response.constraint)
      (ledger.client.2 ++ accepted current response)
    rw [event]
    exact retains.step (Table.le_attach _ _ _ _) fun condition required =>
      Table.recorded_attach.mpr (.inr ⟨rfl, required⟩)

variable [LawfulTree ν] (habitat : SessionHabitat settled)
  (existing : ∀ rule ∈ setting.rules.rules, YieldsExisting settled setting.environment rule)
  {root : ν} {nodes : Set ν} {session after : Session σ}
include habitat existing

/-- Simplification goes the same way with a history, and its constraint retains that. -/
theorem simplify_retains (settles : settled nodes session) (present : root ∈ nodes) {simplified : Constrained ν}
    (returned : simplify setting root session = .ok simplified after) :
    ∃ history, simplify (setting.lift logging) root (session.withHistory []) =
        .ok simplified (after.withHistory history) ∧ Retained history simplified := by
  rw [← session.view_withHistory ([] : History ν), ← setting.lift_id] at returned
  obtain ⟨final, found, rfl⟩ := (simplify_projects (fun rule _ => logging_projects rule.action) root).returned
    returned
  have simplifies := (chronicled_course existing).simplify (fun _ _ fit => fit.arena habitat)
    (chronicled_copies habitat) (fun _ _ => trivial) (.start settles) present
  obtain ⟨_, constraints, -, ⟨-, -, retains⟩, -, -, collected⟩ := simplifies.at_ok found
  refine ⟨final.client.2, found, ?_⟩
  obtain ⟨value, constraint⟩ := simplified
  obtain rfl : constraint = collectConstraints constraints value := collected
  exact retains.collected value

/-- So does optimization, unless it returns the root that it was given. -/
theorem optimize_retains (limits : Limits) (settles : settled nodes session) (present : root ∈ nodes)
    {optimized : Constrained ν} (returned : optimize setting limits root session = .ok optimized after)
    (changed : ¬ sameNode optimized.value root = true) :
    ∃ history, optimizeNoting (setting.lift logging) logRebuilt limits root (session.withHistory []) =
        .ok optimized (after.withHistory history) ∧ Retained history optimized := by
  rw [← optimizeNoting_silent, ← session.view_withHistory ([] : History ν), ← setting.lift_id] at returned
  obtain ⟨final, found, rfl⟩ := (optimizeNoting_projects (fun rule _ => logging_projects rule.action)
    logRebuilt_projects limits root).returned returned
  have explored := Course.explore (fun _ _ fit => fit.arena habitat) (fun _ => chronicled_course existing)
    (chronicled_renews habitat) (fun _ _ _ => trivial) limits limits.recursion (.start settles) present present
  have retained : WhenReturns (optimizeNoting (setting.lift logging) logRebuilt limits root)
      (session.withHistory []) fun optimized after =>
        ¬ sameNode optimized.value root = true → Retained after.client.2 optimized := by
    refine .bind (onFreshLedger_ends (explored.imp ?_))
    rintro result after ⟨_, -, ⟨-, -, retains⟩, -⟩
    by_cases unchanged : sameNode result root = true
    · simp only [unchanged, if_true]
      exact .pure fun changed => absurd unchanged changed
    · simp only [unchanged]
      exact .pure fun _ => retains.collected result
  exact ⟨final.client.2, found, retained.at_ok found changed⟩

end Runs
end QueryOptimizer
