import Mathlib
import QueryOptimizer.Proofs.Simplification.History

/-!
What simplification does at each occurrence of a node in a tree. A node that is shared occurs once below each of
its parents, and rules are called for each of its occurrences anew.
-/
namespace QueryOptimizer
variable {ν ω σ : Type}

/-- An occurrence of a node in a tree that was simplified. -/
structure Occurrence (ν : Type) where
  node : ν
  /-- The occurrences of its children, in order. -/
  children : List (Occurrence ν)
  /-- The identities that had not been handed out when its turn came. -/
  supply : Supply
  /-- What was accepted from the calls of rules for it. -/
  events : History ν
  /-- What the node has become here. -/
  result : ν

/-- The event put another node in place. -/
def Event.Replaces [Identified ν] (event : Event ν) : Prop :=
  ¬ sameNode event.target event.source = true

namespace Occurrence

/-- The first occurrence is the second one or below it. -/
inductive Within : Occurrence ν → Occurrence ν → Prop
  | here (occurrence : Occurrence ν) : Within occurrence occurrence
  | deeper {inner child occurrence : Occurrence ν} (member : child ∈ occurrence.children)
      (within : Within inner child) : Within inner occurrence

/-- The occurrence is one of the others or below one of them. -/
def Among (inner : Occurrence ν) (occurrences : List (Occurrence ν)) : Prop :=
  ∃ occurrence ∈ occurrences, inner.Within occurrence

theorem among_singleton {inner occurrence : Occurrence ν} : inner.Among [occurrence] ↔ inner.Within occurrence := by
  simp [Among]

theorem among_cons {inner first : Occurrence ν} {rest : List (Occurrence ν)} :
    inner.Among (first :: rest) ↔ inner.Within first ∨ inner.Among rest := by
  simp [Among]

theorem within_iff {inner occurrence : Occurrence ν} :
    inner.Within occurrence ↔ inner = occurrence ∨ inner.Among occurrence.children := by
  constructor
  · intro within
    cases within with
    | here => exact .inl rfl
    | deeper member within => exact .inr ⟨_, member, within⟩
  · rintro (rfl | ⟨child, member, within⟩)
    · exact .here _
    · exact .deeper member within

theorem Within.trans {inner occurrence outer : Occurrence ν} (first : inner.Within occurrence)
    (second : occurrence.Within outer) : inner.Within outer := by
  induction second with
  | here => exact first
  | deeper member _ ih => exact .deeper member ih

/-- No call of a rule for this occurrence had a replacement accepted. -/
def Unreplaced [Identified ν] (occurrence : Occurrence ν) : Prop :=
  ∀ event ∈ occurrence.events, ¬ event.Replaces

/-- All children are here still the nodes they were. -/
def KeepsChildren [Identified ν] (occurrence : Occurrence ν) : Prop :=
  ∀ child ∈ occurrence.children, sameNode child.result child.node = true

variable [Tree ν ω]

/-- The result is a new node: a copy of the node, of the same kind, over exactly what its children have become,
under the next identity to be handed out. -/
structure Rebuilt (occurrence : Occurrence ν) : Prop where
  copied : occurrence.result =
    Tree.copyOver occurrence.node (occurrence.children.map Occurrence.result) occurrence.supply.draw.1
  identity : identity occurrence.result = occurrence.supply.draw.1
  operator : Tree.operator occurrence.result = Tree.operator occurrence.node
  children : Tree.children occurrence.result = occurrence.children.map Occurrence.result

/-- There is one occurrence below for each child of the node, and unless a rule replaces the node, it is rebuilt
if and only if it has to be. -/
structure Economical (occurrence : Occurrence ν) : Prop where
  nodes : occurrence.children.map Occurrence.node = Tree.children occurrence.node
  kept : occurrence.Unreplaced → occurrence.KeepsChildren → occurrence.result = occurrence.node
  rebuilt : occurrence.Unreplaced → ¬ occurrence.KeepsChildren → occurrence.Rebuilt

/-- Where nothing is replaced at all, everything remains the very node that it was. -/
theorem result_eq_of_unreplaced {occurrence : Occurrence ν}
    (economical : ∀ inner : Occurrence ν, inner.Within occurrence → inner.Economical)
    (unreplaced : ∀ inner : Occurrence ν, inner.Within occurrence → inner.Unreplaced) :
    occurrence.result = occurrence.node := by
  induction top : occurrence.node using Tree.childInduction generalizing occurrence with
  | step node ih =>
    subst top
    refine (economical _ (.here _)).kept (unreplaced _ (.here _)) fun child member => ?_
    have offspring : child.node ∈ Tree.children occurrence.node := by
      rw [← (economical _ (.here _)).nodes]
      exact List.mem_map_of_mem member
    rw [ih child.node offspring (fun inner within => economical inner (.deeper member within))
      (fun inner within => unreplaced inner (.deeper member within)) rfl]
    exact sameNode_iff.mpr rfl

end Occurrence

variable [Tree ν ω] [DecidableEq ω]

/-- Does what simplification does at an occurrence of `node` whose children's occurrences are `children`, with a
history, and notes the part of the history that comes from here. -/
def simplifyOccurrence (setting : Setting ν ω (Call ν → RuleM σ (Response ν))) (root node : ν)
    (children : List (Occurrence ν)) : Run ν (σ × History ν) (Occurrence ν) := do
  let before ← get
  let result ← simplifyNode (setting.lift logging) root node (children.map Occurrence.result)
  let after ← get
  let events := after.client.2.drop before.client.2.length
  return { node, children, supply := before.supply, events, result }

/-- Simplifies the tree, with a history, and returns with it the occurrence of its root. -/
def simplifyOccurrences (setting : Setting ν ω (Call ν → RuleM σ (Response ν))) (root : ν) :
    RuleM (σ × History ν) (Constrained ν × Occurrence ν) := do
  let (top, constraints) ← (Tree.mapPostOrder (simplifyOccurrence setting root) root).onFreshLedger
  return (⟨top.result, collectConstraints constraints top.result⟩, top)

/-- The rule's calls on matches draw identities at most: they give none back. -/
def OnlyDraws (environment : Environment) (rule : SimplificationRule ν ω σ) : Prop :=
  ∀ (call : Call ν) (session : Session σ), call.environment = environment →
    call.bindings ∈ rule.pattern.allMatches .empty call.current →
    WhenReturns (rule.action call) session fun _ after => session.supply.allocated ≤ after.supply.allocated

variable {setting : Setting ν ω (Call ν → RuleM σ (Response ν))}

/-- From one ledger to the other, the events were added to the history, and identities were drawn at most,
provided that the rules do no more. -/
structure Adds (setting : Setting ν ω (Call ν → RuleM σ (Response ν))) (events : History ν)
    (ledger after : Ledger ν (σ × History ν)) : Prop where
  logged : after.client.2 = ledger.client.2 ++ events
  drawn : (∀ rule ∈ setting.rules.rules, OnlyDraws setting.environment rule) →
    ledger.supply.allocated ≤ after.supply.allocated

namespace Adds
variable {events more : History ν} {ledger middle after : Ledger ν (σ × History ν)}

theorem refl (ledger : Ledger ν (σ × History ν)) : Adds setting [] ledger ledger :=
  ⟨(List.append_nil _).symm, fun _ => Nat.le_refl _⟩

theorem trans (first : Adds setting events ledger middle) (second : Adds setting more middle after) :
    Adds setting (events ++ more) ledger after :=
  ⟨by rw [second.logged, first.logged, List.append_assoc],
    fun draws => Nat.le_trans (first.drawn draws) (second.drawn draws)⟩

end Adds

section Node
variable {root current : ν} {ledger : Ledger ν (σ × History ν)}

/-- A call adds an event that replaces the node, if it yields another one. -/
theorem callRule_adds {application : SimplificationRule ν ω (σ × History ν) × Bindings ν}
    (member : application ∈ applications (setting.lift logging).rules current) :
    WhenReturns (callRule setting.environment application.1 root current application.2) ledger
      fun yielded? after => ∃ events, Adds setting events ledger after ∧
        Verdict current True (fun _ => ∃ event ∈ events, event.Replaces) yielded? := by
  rw [show (setting.lift logging).rules = setting.rules.map (Rule.map logging) from rfl, applications_lift] at member
  obtain ⟨⟨rule, bindings⟩, tried, rfl⟩ := List.mem_map.mp member
  obtain ⟨⟨listed, -⟩, matched⟩ := mem_applications.mp tried
  refine (callRule_answered setting.environment (rule.map logging) root current bindings ledger).imp ?_
  rintro yielded? after ⟨response, session, found, answer⟩
  obtain ⟨final, answered, rfl⟩ := logging_answered found
  have drawn (draws : ∀ rule ∈ setting.rules.rules, OnlyDraws setting.environment rule) :
      ledger.supply.allocated ≤ final.supply.allocated :=
    (draws rule listed _ (ledger.toSession.view Prod.fst) rfl matched).at_ok answered
  rcases answer with ⟨-, rfl, rfl⟩ | ⟨node, single, rfl, rfl⟩
  · exact ⟨_, ⟨rfl, drawn⟩, trivial⟩
  · refine ⟨_, ⟨rfl, drawn⟩, fun _ => trivial, fun different => ?_⟩
    refine ⟨⟨current, node, response.constraint⟩, ?_, different⟩
    show _ ∈ accepted current response
    simp only [accepted, single, List.mem_singleton]

theorem firstReplacement_adds :
    WhenReturns (firstReplacement setting.environment root current
        (applications (setting.lift logging).rules current)) ledger
      fun replacement? after => ∃ events, Adds setting events ledger after ∧
        (replacement? ≠ none → ∃ event ∈ events, event.Replaces) := by
  -- The world is what has happened.
  let fits (happened : Set (Event ν)) (after : Ledger ν (σ × History ν)) : Prop :=
    ∃ events, Adds setting events ledger after ∧ happened = {event | event ∈ events}
  refine (firstReplacement_ends fits (fun _ => True) (fun happened _ => ∃ event ∈ happened, event.Replaces)
    setting.environment root current _ ?_ ⟨[], .refl ledger, rfl⟩).imp ?_
  · rintro application member _ between ⟨earlier, added, rfl⟩
    refine (callRule_adds member).imp ?_
    rintro yielded? after ⟨events, more, verdict⟩
    refine ⟨{event | event ∈ earlier ++ events}, fun event happened => List.mem_append_left _ happened,
      ⟨_, added.trans more, rfl⟩, verdict.mono id ?_⟩
    rintro _ ⟨event, happened, replaces⟩
    exact ⟨event, List.mem_append_right _ happened, replaces⟩
  · rintro replacement? after ⟨_, -, ⟨events, added, rfl⟩, found⟩
    refine ⟨events, added, fun replaced => ?_⟩
    cases replacement? with
    | none => exact absurd rfl replaced
    | some replacement => exact found

/-- Without a replacement, a fixpoint is reached at once. -/
theorem replaceRepeatedly_adds (outermost : Bool) (steps : Nat) :
    WhenReturns (replaceRepeatedly setting.environment (setting.lift logging).rules root outermost steps current)
      ledger fun outcome after => ∃ events, Adds setting events ledger after ∧
        ((∀ event ∈ events, ¬ event.Replaces) → outcome.node = current) := by
  have replaceThen (next : ν → Run ν (σ × History ν) (Outcome ν)) (current : ν)
      (ledger : Ledger ν (σ × History ν))
      (goes : ∀ node middle, WhenReturns (next node) middle fun _ after => ∃ events, Adds setting events middle after) :
      WhenReturns (replaceThen setting.environment (setting.lift logging).rules root outermost next current) ledger
        fun outcome after => ∃ events, Adds setting events ledger after ∧
          ((∀ event ∈ events, ¬ event.Replaces) → outcome.node = current) := by
    refine .bind (firstReplacement_adds.imp ?_)
    rintro replacement? middle ⟨events, added, replaced⟩
    cases replacement? with
    | none => exact .pure ⟨events, added, fun _ => rfl⟩
    | some replacement =>
      obtain ⟨event, happened, replaces⟩ := replaced (Option.some_ne_none _)
      by_cases asked : replacement.2.reExplore = true
      · simp only [asked, if_true]
        exact .pure ⟨events, added, fun none => absurd replaces (none event happened)⟩
      · simp only [asked]
        refine (goes _ middle).imp ?_
        rintro outcome after ⟨more, further⟩
        exact ⟨_, added.trans further, fun none => absurd replaces (none event (List.mem_append_left _ happened))⟩
  induction steps generalizing current ledger with
  | zero => exact replaceThen _ current ledger fun _ _ => trivial
  | succ steps ih => exact replaceThen _ current ledger fun _ _ => ih.imp fun _ _ ⟨events, added, _⟩ => ⟨events, added⟩

variable [LawfulTree ν]

/-- At an occurrence, all events are noted, and the node is rebuilt only if one of its children has become
another node. -/
theorem simplifyOccurrence_adds {node : ν} {children : List (Occurrence ν)}
    (nodes : children.map Occurrence.node = Tree.children node) :
    WhenReturns (simplifyOccurrence setting root node children) ledger fun occurrence after =>
      (occurrence.node = node ∧ occurrence.children = children ∧ occurrence.supply = ledger.supply) ∧
        Adds setting occurrence.events ledger after ∧ occurrence.Economical := by
  have size : (Tree.children node).length = (children.map Occurrence.result).length := by
    rw [← nodes, List.length_map, List.length_map]
  have pairs : (Tree.children node).zip (children.map Occurrence.result) =
      children.map fun child => (child.node, child.result) := by
    rw [← nodes, List.zip_map']
  refine .bind (.of_eq rfl (.bind ?_))
  refine .bind ((Tree.rebuild_returns size).partly.imp ?_)
  intro current middle rebuilt
  refine .bind ((replaceRepeatedly_adds _ _).imp ?_)
  rintro ⟨result, reExploredBy⟩ after ⟨events, added, unreplaced⟩
  cases reExploredBy with
  | some rule => trivial
  | none =>
    have whole : Adds setting events ledger after := by
      rcases rebuilt with ⟨-, rfl, -⟩ | ⟨-, rfl, -⟩
      · exact added
      · exact ⟨added.logged, fun draws => Nat.le_trans (Nat.le_succ _) (added.drawn draws)⟩
    have noted : after.client.2.drop ledger.client.2.length = events := by
      rw [whole.logged, List.drop_left]
    refine .pure (.of_eq rfl ⟨⟨rfl, rfl, rfl⟩, noted ▸ whole, ⟨nodes, ?_, ?_⟩⟩)
    · intro untouched keeps
      rw [Occurrence.Unreplaced, noted] at untouched
      have same : result = current := unreplaced untouched
      rcases rebuilt with ⟨unchanged, -⟩ | ⟨-, -, pair, member, different⟩
      · exact same.trans unchanged
      · rw [pairs] at member
        obtain ⟨child, occurs, rfl⟩ := List.mem_map.mp member
        exact absurd (sameNode_iff.mpr (sameNode_iff.mp (keeps child occurs)).symm) different
    · intro untouched changes
      rw [Occurrence.Unreplaced, noted] at untouched
      have same : result = current := unreplaced untouched
      rcases rebuilt with ⟨-, -, all⟩ | ⟨copied, -, -⟩
      · refine absurd (fun child occurs => ?_) changes
        have paired := all (child.node, child.result) (pairs ▸ List.mem_map_of_mem occurs)
        exact sameNode_iff.mpr (sameNode_iff.mp paired).symm
      · refine ⟨same.trans copied, ?_, ?_, ?_⟩
        · show identity result = _
          rw [same, copied, LawfulTree.identity_copyOver]
          rfl
        · show Tree.operator result = _
          rw [same, copied, LawfulTree.operator_copyOver]
        · show Tree.children result = _
          rw [same, copied, LawfulTree.children_copyOver _ _ _ size.symm]

end Node

/-- The occurrences are those that the part of the run from one ledger to the other has gone through: they account
for all that was added to the history. -/
structure Accounts (setting : Setting ν ω (Call ν → RuleM σ (Response ν))) (occurrences : List (Occurrence ν))
    (ledger after : Ledger ν (σ × History ν)) : Prop where
  adds : ∃ events, Adds setting events ledger after ∧
    ∀ event, event ∈ events ↔ ∃ inner : Occurrence ν, inner.Among occurrences ∧ event ∈ inner.events
  economical : ∀ inner : Occurrence ν, inner.Among occurrences → inner.Economical
  later : (∀ rule ∈ setting.rules.rules, OnlyDraws setting.environment rule) →
    ∀ inner : Occurrence ν, inner.Among occurrences → ledger.supply.allocated ≤ inner.supply.allocated

namespace Accounts
variable {ledger middle after : Ledger ν (σ × History ν)}

theorem nil (ledger : Ledger ν (σ × History ν)) : Accounts setting [] ledger ledger :=
  ⟨⟨[], .refl ledger, by simp [Occurrence.Among]⟩, by simp [Occurrence.Among], by simp [Occurrence.Among]⟩

theorem cons {first : Occurrence ν} {rest : List (Occurrence ν)} (one : Accounts setting [first] ledger middle)
    (others : Accounts setting rest middle after) : Accounts setting (first :: rest) ledger after := by
  obtain ⟨⟨events, added, happened⟩, economical, later⟩ := one
  obtain ⟨⟨more, further, happening⟩, economicals, laters⟩ := others
  simp only [Occurrence.among_singleton] at happened economical later
  refine ⟨⟨_, added.trans further, fun event => ?_⟩, ?_, ?_⟩
  · simp only [List.mem_append, happened, happening, Occurrence.among_cons, or_and_right, exists_or]
  · simp only [Occurrence.among_cons]
    rintro inner (within | among)
    · exact economical inner within
    · exact economicals inner among
  · simp only [Occurrence.among_cons]
    rintro draws inner (within | among)
    · exact later draws inner within
    · exact Nat.le_trans (added.drawn draws) (laters draws inner among)

/-- An occurrence accounts for what it adds to what its children account for. -/
theorem parent {occurrence : Occurrence ν} (below : Accounts setting occurrence.children ledger middle)
    (added : Adds setting occurrence.events middle after) (economical : occurrence.Economical)
    (turn : occurrence.supply = middle.supply) : Accounts setting [occurrence] ledger after := by
  obtain ⟨⟨events, before, happened⟩, economicals, laters⟩ := below
  refine ⟨⟨_, before.trans added, fun event => ?_⟩, ?_, ?_⟩
  · simp only [List.mem_append, happened, Occurrence.among_singleton, Occurrence.within_iff, or_and_right, exists_or,
      exists_eq_left, or_comm]
  · simp only [Occurrence.among_singleton, Occurrence.within_iff]
    rintro inner (rfl | among)
    · exact economical
    · exact economicals inner among
  · simp only [Occurrence.among_singleton, Occurrence.within_iff]
    rintro draws inner (rfl | among)
    · exact turn ▸ before.drawn draws
    · exact laters draws inner among

end Accounts

section Tree
variable [LawfulTree ν]

/-- The occurrences that a whole run goes through account for its history. -/
theorem fold_accounts (root node : ν) (ledger : Ledger ν (σ × History ν)) :
    WhenReturns (Tree.fold (simplifyOccurrence setting root) node) ledger
      fun occurrence after => occurrence.node = node ∧ Accounts setting [occurrence] ledger after := by
  have each (nodes : List ν) (visits : ∀ child ∈ nodes, ∀ ledger,
      WhenReturns (Tree.fold (simplifyOccurrence setting root) child) ledger
        fun occurrence after => occurrence.node = child ∧ Accounts setting [occurrence] ledger after)
      (ledger : Ledger ν (σ × History ν)) :
      WhenReturns (nodes.mapM (Tree.fold (simplifyOccurrence setting root))) ledger
        fun occurrences after => occurrences.map Occurrence.node = nodes ∧
          Accounts setting occurrences ledger after := by
    induction nodes generalizing ledger with
    | nil => exact ⟨rfl, .nil ledger⟩
    | cons child rest ih =>
      rw [List.mapM_cons]
      refine .bind ((visits child (by simp) ledger).imp ?_)
      rintro first middle ⟨same, one⟩
      refine .bind ((ih (fun other member => visits other (by simp [member])) middle).imp ?_)
      rintro others after ⟨rest, all⟩
      exact .pure ⟨by rw [List.map_cons, same, rest], one.cons all⟩
  induction node using Tree.childInduction generalizing ledger with
  | step node ih =>
    rw [Tree.fold_eq]
    refine .bind ((each (Tree.children node) ih ledger).imp ?_)
    rintro children middle ⟨nodes, below⟩
    refine (simplifyOccurrence_adds nodes).imp ?_
    rintro occurrence after ⟨⟨here, rfl, turn⟩, added, economical⟩
    exact ⟨here, below.parent added economical turn⟩

omit [LawfulTree ν] in
theorem result_simplifyOccurrence (root node : ν) (children : List (Occurrence ν)) :
    Occurrence.result <$> simplifyOccurrence setting root node children =
      simplifyNode (setting.lift logging) root node (children.map Occurrence.result) := by
  have unnoted : (fun result => (do let _ ← get; return result : Run ν (σ × History ν) ν)) = pure := rfl
  simp only [simplifyOccurrence, map_bind, map_pure, unnoted, bind_pure]
  rfl

/-- Taking down the occurrences, simplification does what it does with a history, and they account for that. -/
theorem simplify_accounts (root : ν) (session : Session (σ × History ν)) :
    WhenReturns (simplify (setting.lift logging) root) session fun simplified after =>
      ∃ top constraints, simplifyOccurrences setting root session = .ok (simplified, top) after ∧
        top.node = root ∧ top.result = simplified.value ∧
        Accounts setting [top] { toSession := session } { toSession := after, constraints } := by
  have viewed : Occurrence.result <$> Tree.mapPostOrder (simplifyOccurrence setting root) root =
      Tree.mapPostOrder (simplifyNode (setting.lift logging) root) root := by
    rw [Tree.mapPostOrder_eq_fold, Tree.mapPostOrder_eq_fold]
    exact Tree.map_fold Occurrence.result (result_simplifyOccurrence root) root
  refine .bind (onFreshLedger_ends ?_)
  rw [← viewed, map_eq_pure_bind]
  refine .bind (whenReturns_iff.mpr fun top ledger found => .pure (.pure ⟨top, ledger.constraints, ?_, ?_⟩))
  · rw [simplifyOccurrences, bind_of_ok (onFreshLedger_of_ok found)]
    rfl
  · rw [Tree.mapPostOrder_eq_fold] at found
    obtain ⟨node, accounts⟩ := (fold_accounts root root _).at_ok found
    exact ⟨node, rfl, accounts⟩

end Tree
end QueryOptimizer
