import QueryOptimizer.Proofs.Simplification.History
import QueryOptimizer.Simplification.Computation

/-!
Computations by rules that were made for simplification. Such rules do to the nodes what they do to them
anyway, and the results that they attach can be told from the history of the run alone.
-/
namespace QueryOptimizer
variable {ν ω σ A ρ : Type} [Tree ν ω]

/-- What the events of a history leave attached to a node: nothing if no event led to it, and otherwise what
the last of these events computed, from the argument, the node and what was attached by then to the children of
the node that it replaced. -/
inductive Attached (summary : A → ν → List (Option ρ) → ρ) (argument : A) : History ν → ν → Option ρ → Prop where
  | nothing : (∀ event ∈ history, ¬ sameNode event.target node = true) →
      Attached summary argument history node none
  | last : history = earlier ++ event :: later → sameNode event.target node = true →
      (∀ other ∈ later, ¬ sameNode other.target node = true) →
      (∀ child ∈ Tree.children event.source, Attached summary argument earlier child (results child)) →
      Attached summary argument history node
        (some (summary argument event.target ((Tree.children event.source).map results)))

/-- A result is attached to the nodes that some event led to, and to no others. -/
theorem Attached.isSome_iff {summary : A → ν → List (Option ρ) → ρ} {argument : A} {history : History ν}
    {node : ν} {result? : Option ρ} (attached : Attached summary argument history node result?) :
    result?.isSome = true ↔ ∃ event ∈ history, sameNode event.target node = true := by
  cases attached with
  | nothing never => simpa using never
  | last split targeted => simpa [split] using ⟨_, .inr (.inl rfl), targeted⟩

section Results
variable (summary : A → ν → List (Option ρ) → ρ) (argument : A)

/-- The table of results after one more event. -/
def attachResult (computed : Table ν ρ) (event : Event ν) : Table ν ρ :=
  computed.insert event.target
    (summary argument event.target ((Tree.children event.source).map computed.get?))

/-- The table of results that the events of a history lead to. -/
def resultsOf (history : History ν) : Table ν ρ :=
  history.foldl (attachResult summary argument) .empty

theorem resultsOf_append (history events : History ν) :
    resultsOf summary argument (history ++ events) =
      events.foldl (attachResult summary argument) (resultsOf summary argument history) :=
  List.foldl_append

/-- A node without events has no result, and one with events has that of the last. -/
theorem get?_resultsOf (history : History ν) (node : ν) :
    ((∀ event ∈ history, ¬ sameNode event.target node = true) ∧
        (resultsOf summary argument history).get? node = none) ∨
      ∃ earlier event later, history = earlier ++ event :: later ∧ sameNode event.target node = true ∧
        (∀ other ∈ later, ¬ sameNode other.target node = true) ∧
        (resultsOf summary argument history).get? node = some (summary argument event.target
          ((Tree.children event.source).map (resultsOf summary argument earlier).get?)) := by
  induction history using List.reverseRecOn with
  | nil => exact .inl ⟨fun _ member => (nomatch member), Table.get?_empty node⟩
  | append_singleton history event ih =>
    rw [resultsOf_append, List.foldl_cons, List.foldl_nil, attachResult, Table.get?_insert]
    by_cases same : sameNode event.target node = true
    · rw [if_pos (sameNode_iff.mp same)]
      exact .inr ⟨history, event, [], rfl, same, fun _ member => (nomatch member), rfl⟩
    · have elsewhere {events : History ν} (never : ∀ other ∈ events, ¬ sameNode other.target node = true) :
          ∀ other ∈ events ++ [event], ¬ sameNode other.target node = true :=
        List.forall_mem_append.mpr ⟨never, List.forall_mem_singleton.mpr same⟩
      rw [if_neg fun equal => same (sameNode_iff.mpr equal)]
      rcases ih with ⟨never, absent⟩ | ⟨earlier, last, later, rfl, targeted, never, found⟩
      · exact .inl ⟨elsewhere never, absent⟩
      · exact .inr ⟨earlier, last, later ++ [event], by simp, targeted, elsewhere never, found⟩

/-- The table has what the history leaves attached. -/
theorem attached_resultsOf (history : History ν) (node : ν) :
    Attached summary argument history node ((resultsOf summary argument history).get? node) := by
  -- Results of children come from earlier events, not from the children of a tree: replacements may lead upwards.
  induction size : history.length using Nat.strongRecOn generalizing history node with
  | ind count ih =>
    rcases get?_resultsOf summary argument history node with ⟨never, absent⟩ | found
    · rw [absent]
      exact .nothing never
    · obtain ⟨earlier, event, later, rfl, targeted, never, found⟩ := found
      have shorter : earlier.length < count := by
        rw [← size, List.length_append, List.length_cons]
        omega
      rw [found]
      exact .last rfl targeted never fun child _ => ih earlier.length shorter earlier child rfl

/-- The action of a rule that computes, for a client that keeps the results. -/
def recorded (action : ComputationCall ν A ρ → RuleM σ (Response (ν × ρ))) :
    Call ν → RuleM (ComputationState ν σ ρ) (Response ν) :=
  (ComputationRule.recording argument ⟨"", .any (ω := ω) none, none, action⟩).action

/-- What is attached once a rule has answered: also its result, if it yields a single node. -/
def keepResult (computed : Table ν ρ) (response : Response (ν × ρ)) : Table ν ρ :=
  match response.results with
  | [(node, result)] => computed.insert node result
  | _ => computed

/-- The action of a rule that is made to compute, for a client that keeps the results. -/
def attaching (action : Call ν → RuleM σ (Response ν)) : Call ν → RuleM (ComputationState ν σ ρ) (Response ν) :=
  (ComputationRule.recording argument
    (ComputationRule.ofSimplification summary ⟨"", .any (ω := ω) none, none, action⟩)).action

def Session.withResults (session : Session σ) (computed : Table ν ρ) : Session (ComputationState ν σ ρ) :=
  ⟨session.supply, session.client, computed⟩

/-- A rule is called with the results so far, and yields nodes without their results. -/
theorem recorded_eq (action : ComputationCall ν A ρ → RuleM σ (Response (ν × ρ))) (call : Call ν)
    (session : Session (ComputationState ν σ ρ)) :
    recorded argument action call session =
      match action { call with argument, computed := session.client.2 } (session.view Prod.fst) with
      | .ok response after =>
        .ok (response.map Prod.fst) (after.withResults (keepResult session.client.2 response))
      | .error interruption after => .error interruption (after.withResults session.client.2) := by
  have called : action { call with argument, computed := session.client.2 } (session.view Prod.fst) =
      action { call with argument, computed := session.client.2 } ⟨session.supply, session.client.1⟩ := rfl
  simp only [recorded, ComputationRule.recording, Rule.map, bind, EStateM.bind, RuleM.keepingResults, get, getThe,
    MonadStateOf.get, EStateM.get, called]
  cases action { call with argument, computed := session.client.2 } ⟨session.supply, session.client.1⟩ with
  | error interruption after => rfl
  | ok response after =>
    obtain ⟨results, constraint, reExplore⟩ := response
    match results with
    | [] | [(node, result)] | _ :: _ :: _ => rfl

theorem recorded_ends {action : ComputationCall ν A ρ → RuleM σ (Response (ν × ρ))} {call : Call ν}
    {session : Session (ComputationState ν σ ρ)}
    {returns : Response ν → Session (ComputationState ν σ ρ) → Prop}
    {stops : Interruption → Session (ComputationState ν σ ρ) → Prop}
    (ends : Ends (action { call with argument, computed := session.client.2 }) (session.view Prod.fst)
      (fun response after =>
        returns (response.map Prod.fst) (after.withResults (keepResult session.client.2 response)))
      fun interruption after => stops interruption (after.withResults session.client.2)) :
    Ends (recorded argument action call) session returns stops := by
  unfold Ends at *
  rw [recorded_eq]
  cases found : action { call with argument, computed := session.client.2 } (session.view Prod.fst)
  all_goals simpa only [found] using ends

/-- What is accepted of an answer gets its result, which is the only thing that is kept besides. -/
theorem attaching_eq (action : Call ν → RuleM σ (Response ν)) (call : Call ν) (session : Session σ)
    (computed : Table ν ρ) :
    attaching summary argument action call (session.withResults computed) =
      match action call session with
      | .ok response after =>
        .ok response (after.withResults
          ((accepted call.current response).foldl (attachResult summary argument) computed))
      | .error interruption after => .error interruption (after.withResults computed) := by
  have erased (response : Response ν) (result : ν → ρ) :
      (response.map fun node => (node, result node)).map Prod.fst = response := by
    simp [Response.map, Function.comp_def]
  have known := recorded_eq argument
    (ComputationRule.ofSimplification summary ⟨"", .any (ω := ω) none, none, action⟩).action call
    (session.withResults computed)
  refine known.trans ?_
  have same : (session.withResults computed).view Prod.fst = session := rfl
  simp only [ComputationRule.ofSimplification, Rule.map, bind, EStateM.bind, same]
  cases action call session with
  | error interruption after => rfl
  | ok response after =>
    dsimp only [pure, EStateM.pure]
    rw [erased]
    obtain ⟨results, constraint, reExplore⟩ := response
    match results with
    | [] | [node] | _ :: _ :: _ => rfl

/-- The results attached are those that the history leads to. -/
theorem logging_attaches (action : Call ν → RuleM σ (Response ν)) (call : Call ν) :
    Projects (Session.view fun client => (client.1, resultsOf summary argument client.2))
      (logging action call) (attaching summary argument action call) := by
  intro session
  have ran := attaching_eq summary argument action call (session.view Prod.fst)
    (resultsOf summary argument session.client.2)
  unfold Ends logging
  cases found : action call (session.view Prod.fst) with
  | ok response after =>
    rw [found] at ran
    dsimp only at ran
    rw [← resultsOf_append] at ran
    exact ran
  | error interruption after =>
    rw [found] at ran
    exact ran

variable (setting : Setting ν ω (Call ν → RuleM σ (Response ν)))

/-- The setting with its rules made to compute. -/
def Setting.computing : Setting ν ω (ComputationCall ν A ρ → RuleM σ (Response (ν × ρ))) :=
  { setting with rules := setting.rules.map (ComputationRule.ofSimplification summary) }

/-- Rules that are made to compute, and then to record what they compute, attach results. -/
theorem Setting.computing_recording :
    ({ setting.computing summary with
      rules := (setting.computing summary).rules.map (ComputationRule.recording argument) } :
        Setting ν ω (Call ν → RuleM (ComputationState ν σ ρ) (Response ν))) =
      setting.lift (attaching summary argument) := by
  simp only [computing, lift, RuleSet.map, List.map_map]
  rfl

variable [DecidableEq ω]

/-- A computation is a simplification that attaches results, with the result attached to its root. -/
theorem compute_computing (root : ν) (session : Session σ) :
    compute (setting.computing summary) argument root session =
      match simplify (setting.lift (attaching summary argument)) root (session.withResults .empty) with
      | .ok simplified after =>
        .ok ((after.client.2.get? simplified.value).map (simplified, ·)) (after.view Prod.fst)
      | .error interruption after => .error interruption (after.view Prod.fst) := by
  unfold compute Session.withResults
  dsimp only
  rw [Setting.computing_recording]
  cases simplify (setting.lift (attaching summary argument)) root ⟨session.supply, session.client, .empty⟩ with
  | ok simplified after => rfl
  | error interruption after => rfl

/-- A computation ends as the simplification by the rules it was made of, and returns what their history leaves
attached to the root. -/
theorem compute_ends (root : ν) (session : Session σ) :
    Ends (simplify setting root) session
      (fun simplified after => ∃ history,
        simplify (setting.lift logging) root (session.withHistory []) =
            .ok simplified (after.withHistory history) ∧
          simplify (setting.lift (attaching summary argument)) root (session.withResults .empty) =
            .ok simplified (after.withResults (resultsOf summary argument history)) ∧
          compute (setting.computing summary) argument root session =
            .ok (((resultsOf summary argument history).get? simplified.value).map (simplified, ·)) after)
      (fun interruption after =>
        compute (setting.computing summary) argument root session = .error interruption after) := by
  have plain : Projects (Session.view Prod.fst) (simplify (setting.lift logging) root)
      (simplify (setting.lift id) root) :=
    simplify_projects (fun rule _ => logging_projects rule.action) root
  have attached : Projects (Session.view fun client => (client.1, resultsOf summary argument client.2))
      (simplify (setting.lift logging) root) (simplify (setting.lift (attaching summary argument)) root) :=
    simplify_projects (fun rule _ => logging_attaches summary argument rule.action) root
  rw [setting.lift_id] at plain
  have plainly := plain (session.withHistory [])
  have attaches := attached (session.withHistory [])
  rw [session.view_withHistory] at plainly
  change Ends _ _ (fun simplified after =>
      simplify _ root (session.withResults .empty) = .ok simplified _)
    (fun interruption after => simplify _ root (session.withResults .empty) = .error interruption _) at attaches
  unfold Ends at plainly attaches ⊢
  rw [compute_computing]
  cases logged : simplify (setting.lift logging) root (session.withHistory []) with
  | ok simplified after =>
    simp only [logged] at plainly attaches
    simp only [plainly, attaches]
    exact ⟨after.client.2, rfl, rfl, rfl⟩
  | error interruption after =>
    simp only [logged] at plainly attaches
    simp only [plainly, attaches]
    rfl

end Results
end QueryOptimizer
