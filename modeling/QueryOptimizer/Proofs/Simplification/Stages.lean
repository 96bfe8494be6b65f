import Mathlib
import QueryOptimizer.Proofs.Rule.Form
import QueryOptimizer.Proofs.Simplification.Fixpoint
import QueryOptimizer.Proofs.Simplification.Stability

/-!
Fixpoints in stages. If rules replace nodes of one form by nodes of one form, then what a scan replaces a node by is
the first of the alternatives that one application of every rule gives, and a fixpoint is where taking the first
alternative comes to an end.
-/
namespace QueryOptimizer

/-- From `first`, exactly `count` steps can be taken, and they lead to `last`. -/
inductive Ceases {φ : Type} (next : φ → Option φ) : φ → Nat → φ → Prop
  | here {last : φ} (none : next last = none) : Ceases next last 0 last
  | onward {first middle last : φ} {count : Nat} (step : next first = some middle)
      (rest : Ceases next middle count last) : Ceases next first (count + 1) last

theorem Ceases.unique {φ : Type} {next : φ → Option φ} {first one other : φ} {count size : Nat}
    (left : Ceases next first count one) (right : Ceases next first size other) : one = other := by
  induction left generalizing size with
  | here none =>
    cases right with
    | here => rfl
    | onward step _ => rw [none] at step; cases step
  | onward step _ ih =>
    cases right with
    | here none => rw [none] at step; cases step
    | onward again rest =>
      obtain rfl := Option.some.inj (step.symm.trans again)
      exact ih rest

/-- Lists of results are the same through a view if each element has one result through the view. -/
theorem map_eq_of_forall₂ {α β φ : Type} {view : β → φ} {related : α → φ → Prop} {elements : List α}
    {results others : List β}
    (unique : ∀ element ∈ elements, ∀ one other, related element one → related element other → one = other)
    (left : List.Forall₂ (fun element result => related element (view result)) elements results)
    (right : List.Forall₂ (fun element result => related element (view result)) elements others) :
    results.map view = others.map view := by
  induction left generalizing others with
  | nil =>
    cases right
    rfl
  | cons first _ ih =>
    cases right with
    | cons second rest =>
      rw [List.map_cons, List.map_cons, unique _ (by simp) _ _ first second,
        ih (fun element member => unique element (by simp [member])) rest]

variable {ν ω σ φ : Type} [Tree ν ω] [DecidableEq ω]

/-- Where taking the first alternative leads to, `count` times in a row, if there always is one. -/
def firstAlternatives (environment : Environment) (rules : RuleSet ν ω (Call ν → RuleM σ (Response ν))) :
    (count : Nat) → ν → RuleM σ (Option ν)
  | 0, node => return some node
  | count + 1, node => do
    match (← simplifyCurrent environment rules node).head? with
    | none => return none
    | some alternative => firstAlternatives environment rules count alternative.value

/-- After a node without alternatives there are no more. -/
theorem firstAlternatives_eq_none {environment : Environment} {rules : RuleSet ν ω (Call ν → RuleM σ (Response ν))}
    {count more : Nat} {node last : ν} {session between after : Session σ}
    (leads : firstAlternatives environment rules count node session = .ok (some last) between)
    (ends : simplifyCurrent environment rules last between = .ok [] after) :
    firstAlternatives environment rules (count + (more + 1)) node session = .ok none after := by
  induction count generalizing node session with
  | zero =>
    cases leads
    rw [Nat.zero_add, firstAlternatives, bind_of_ok ends]
    rfl
  | succ count ih =>
    rw [Nat.succ_add, firstAlternatives]
    rw [firstAlternatives] at leads
    obtain ⟨alternatives, middle, found, rest⟩ := bind_eq_ok_iff.mp leads
    rw [bind_of_ok found]
    cases first : alternatives.head? with
    | none => simp only [first] at rest; cases rest
    | some alternative =>
      simp only [first] at rest ⊢
      exact ih rest

/-- Always taking the first alternative leads from the node, `count` times in a row, to `last`, which has no
alternatives and is the first such node. -/
structure LeadsTo (environment : Environment) (rules : RuleSet ν ω (Call ν → RuleM σ (Response ν))) (node : ν)
    (session : Session σ) (count : Nat) (last : ν) : Prop where
  arrives : ∃ between after, firstAlternatives environment rules count node session = .ok (some last) between ∧
    simplifyCurrent environment rules last between = .ok [] after
  first : ∀ fewer < count, ∀ earlier between,
    firstAlternatives environment rules fewer node session = .ok (some earlier) between →
      ∀ after, simplifyCurrent environment rules earlier between ≠ .ok [] after

theorem LeadsTo.of_arrives {environment : Environment} {rules : RuleSet ν ω (Call ν → RuleM σ (Response ν))}
    {node last : ν} {session between after : Session σ} {count : Nat}
    (leads : firstAlternatives environment rules count node session = .ok (some last) between)
    (ends : simplifyCurrent environment rules last between = .ok [] after) :
    LeadsTo environment rules node session count last := by
  refine ⟨⟨between, after, leads, ends⟩, fun fewer less earlier middle led final none => ?_⟩
  obtain ⟨more, rfl⟩ : ∃ more, count = fewer + (more + 1) := ⟨count - fewer - 1, by omega⟩
  rw [firstAlternatives_eq_none led none] at leads
  cases leads

section Foretold
variable (rules : RuleSet ν ω (Call ν → RuleM σ (Response ν))) (form : ν → φ)
variable (answer : SimplificationRule ν ω σ → φ → List (String × φ) → Option φ)

/-- The forms of the replacements that the applications of rules to a node yield, if they do. -/
def foretold (node : ν) : List (Option φ) :=
  (applications rules node).map fun application => answer application.1 (form node) (application.2.forms form)

/-- The form of the first replacement for nodes of the given form. -/
noncomputable def firstForm : φ → Option φ :=
  Function.extend form (fun node => (foretold rules form answer node).findSome? id) fun _ => none

variable {rules form}

theorem foretold_eq (structural : Structural form) (respects : ∀ rule ∈ rules.rules, rule.pattern.Respects form)
    {one other : ν} (same : form one = form other) :
    foretold rules form answer one = foretold rules form answer other := by
  have alike := congrArg (List.map fun application => answer application.1 (form other) application.2)
    (applications_forms structural respects same)
  rw [List.map_map, List.map_map] at alike
  unfold foretold
  rw [same]
  exact alike

theorem firstForm_eq (structural : Structural form) (respects : ∀ rule ∈ rules.rules, rule.pattern.Respects form)
    (node : ν) : firstForm rules form answer (form node) = (foretold rules form answer node).findSome? id := by
  refine Function.FactorsThrough.extend_apply ?_ _ node
  intro one other same
  exact congrArg (List.findSome? id) (foretold_eq answer structural respects same)

end Foretold

/-- What a scan comes to if the first replacement is of the form `first?`, or if there is none: an existing node of
that form, with no request to explore it. -/
abbrev ReplacesBy (settled : Set ν → Session σ → Prop) (form : ν → φ) (nodes : Set ν) (first? : Option φ)
    (replacement? : Option (String × Yielded ν)) (after : Ledger ν σ) : Prop :=
  Onward (InSession settled) nodes after fun wider =>
    (∀ replacement, replacement? = some replacement →
      replacement.2.node ∈ wider ∧ replacement.2.reExplore = false) ∧
      replacement?.map (fun replacement => form replacement.2.node) = first?

/-- What a fixpoint comes to from a node of the form `first`: an existing node of the form where `next` comes to an
end, with no request to explore it. -/
abbrev ArrivesBy (settled : Set ν → Session σ → Prop) (next : φ → Option φ) (form : ν → φ) (nodes : Set ν) (first : φ)
    (outcome : Outcome ν) (after : Ledger ν σ) : Prop :=
  Onward (InSession settled) nodes after fun wider =>
    outcome.node ∈ wider ∧ outcome.reExploredBy = none ∧ ∃ count, Ceases next first count (form outcome.node)

/-- Simplification can turn the node into one of the given form, at some place in some tree. -/
def Comes (environment : Environment) (rules : RuleSet ν ω (Call ν → RuleM σ (Response ν)))
    (settled : Set ν → Session σ → Prop) (form : ν → φ) (node : ν) (last : φ) : Prop :=
  ∃ patience nodes root ledger result after, settled nodes (Ledger.toSession ledger) ∧ root ∈ nodes ∧ node ∈ nodes ∧
    Tree.fold (simplifyNode ⟨environment, rules, patience⟩ root) node ledger = .ok result after ∧ form result = last

section Runs
variable {environment : Environment} {rules : RuleSet ν ω (Call ν → RuleM σ (Response ν))}
variable {patience : ν → Nat} {settled : Set ν → Session σ → Prop}
variable {form : ν → φ} {answer : SimplificationRule ν ω σ → φ → List (String × φ) → Option φ}
variable {root current : ν} {nodes : Set ν} {ledger : Ledger ν σ}
variable (existing : ∀ rule ∈ rules.rules, YieldsExisting settled environment rule)
variable (answers : ∀ rule ∈ rules.rules, AnswersBy settled environment form rule (answer rule))
include existing answers

/-- A call yields an existing node, and a replacement of the form that was foretold. -/
theorem callRule_foretold {application : SimplificationRule ν ω σ × Bindings ν}
    (member : application ∈ applications rules current) (settles : settled nodes ledger.toSession)
    (rooted : root ∈ nodes) (present : current ∈ nodes) :
    Returns (callRule environment application.1 root current application.2) ledger fun yielded? after =>
      Onward (InSession settled) nodes after fun wider =>
        (∀ yielded, yielded? = some yielded → yielded.node ∈ wider ∧ yielded.reExplore = false) ∧
          (yielded?.filter fun yielded => !sameNode yielded.node current).map (fun yielded => form yielded.node) =
            answer application.1 (form current) (application.2.forms form) := by
  have called := calledIn_of_mem_applications environment member settles rooted present
  have listed := (mem_applications.mp member).1.1
  refine callRule_takes (((answers _ listed _ _ _ called).and (existing _ listed _ _ _ called)).mono ?_
    fun _ _ stopped => stopped.1)
  rintro response session ⟨⟨quiet, node?, single, foretells⟩, wider, included, settles, joined⟩
  unfold Ledger.Takes
  cases node? with
  | none =>
    simp only [single, Option.toList_none]
    exact ⟨wider, included, settles, by simp, foretells⟩
  | some node =>
    simp only [single, Option.toList_some]
    refine ⟨wider, included, settles, ?_, ?_⟩
    · rintro yielded found
      obtain rfl := Option.some.inj found
      exact ⟨joined node (by simp [single]), quiet⟩
    · refine Eq.trans ?_ foretells
      cases same : sameNode node current <;> simp [Option.filter, same, Ledger.call]

/-- The scan of a node replaces it as the first answer tells that replaces it at all. -/
theorem firstReplacement_foretold {pending : List (SimplificationRule ν ω σ × Bindings ν)}
    (members : ∀ application ∈ pending, application ∈ applications rules current)
    (settles : settled nodes ledger.toSession) (rooted : root ∈ nodes) (present : current ∈ nodes) :
    Returns (firstReplacement environment root current pending) ledger
      (ReplacesBy settled form nodes
        ((pending.map fun application => answer application.1 (form current) (application.2.forms form)).findSome?
          id)) := by
  induction pending generalizing nodes ledger with
  | nil => exact ⟨nodes, le_refl nodes, settles, by simp, rfl⟩
  | cons application rest ih =>
    refine .bind ((callRule_foretold existing answers (members application (by simp)) settles rooted present).imp ?_)
    rintro yielded? middle ⟨between, included, settling, yields, foretells⟩
    have goesOn (left : answer application.1 (form current) (application.2.forms form) = none) :
        Returns (firstReplacement environment root current rest) middle
          (ReplacesBy settled form nodes (((application :: rest).map fun application =>
            answer application.1 (form current) (application.2.forms form)).findSome? id)) := by
      rw [List.map_cons, left, List.findSome?_cons_of_isNone rfl]
      exact (ih (fun other member => members other (by simp [member])) settling (included rooted)
        (included present)).imp fun _ _ reached => reached.after included
    cases yielded? with
    | none => exact goesOn foretells.symm
    | some yielded =>
      by_cases same : sameNode yielded.node current = true
      · simp only [same, if_true]
        exact goesOn (by simpa [Option.filter, same] using foretells.symm)
      · simp only [same]
        refine .pure ⟨between, included, settling, ?_, ?_⟩
        · rintro replacement found
          obtain rfl := Option.some.inj found
          exact yields yielded rfl
        · have replaced : answer application.1 (form current) (application.2.forms form) =
              some (form yielded.node) := by
            simpa [Option.filter, same] using foretells.symm
          rw [List.map_cons, replaced]
          rfl

/-- The alternatives to a node are of the forms that were foretold. -/
theorem simplifyCurrent_foretold {session : Session σ} (settles : settled nodes session) (present : current ∈ nodes) :
    Returns (simplifyCurrent environment rules current) session fun alternatives after =>
      ∃ wider, nodes ⊆ wider ∧ settled wider after ∧ (∀ alternative ∈ alternatives, alternative.value ∈ wider) ∧
        alternatives.map (fun alternative => form alternative.value) =
          (foretold rules form answer current).filterMap id := by
  let fits (nodes : Set ν) (session : Session σ) : Prop := settled nodes session ∧ current ∈ nodes
  let holds (nodes : Set ν) (application : SimplificationRule ν ω σ × Bindings ν)
      (alternative? : Option (Constrained ν)) : Prop :=
    (∀ alternative, alternative? = some alternative → alternative.value ∈ nodes) ∧
      alternative?.map (fun alternative => form alternative.value) =
        answer application.1 (form current) (application.2.forms form)
  refine .bind ((Ends.mapM fits holds ?_ (applications rules current) ?_ ⟨settles, present⟩).imp ?_)
  · rintro nodes wider application alternative? included ⟨known, foretells⟩
    exact ⟨fun alternative found => included (known alternative found), foretells⟩
  · rintro application member nodes session ⟨settles, present⟩
    refine .bind (onFreshLedger_ends ((callRule_foretold existing answers member settles present present).imp ?_))
    rintro yielded? after ⟨wider, included, settling, yields, foretells⟩
    refine .pure ⟨wider, included, ⟨settling, included present⟩, ?_, ?_⟩
    · intro alternative found
      obtain ⟨yielded, kept, rfl⟩ := Option.map_eq_some_iff.mp found
      exact (yields yielded (Option.filter_eq_some_iff.mp kept).1).1
    · rw [← foretells, Option.map_map]
      rfl
  · rintro alternatives after ⟨wider, included, ⟨settling, -⟩, foretells⟩
    refine .pure ⟨wider, included, settling, ?_, ?_⟩
    · intro alternative member
      obtain ⟨alternative?, listed, found⟩ := List.mem_filterMap.mp member
      exact (forall_mem_of_forall₂ foretells fun _ _ held => held.1) alternative? listed alternative found
    · have viewed : alternatives.map (Option.map fun alternative => form alternative.value) =
          foretold rules form answer current := by
        refine List.forall₂_eq_eq_eq ▸ List.forall₂_map_left_iff.mpr (List.forall₂_map_right_iff.mpr ?_)
        exact foretells.flip.imp fun _ _ held => held.2
      rw [List.map_filterMap, ← viewed, List.filterMap_map]
      rfl

variable (structural : Structural form) (respects : ∀ rule ∈ rules.rules, rule.pattern.Respects form)
include structural respects

/-- The first alternative to a node is of the form that comes first. -/
theorem head?_simplifyCurrent {session : Session σ} (settles : settled nodes session) (present : current ∈ nodes) :
    Returns (simplifyCurrent environment rules current) session fun alternatives after =>
      ∃ wider, nodes ⊆ wider ∧ settled wider after ∧ (∀ alternative ∈ alternatives, alternative.value ∈ wider) ∧
        alternatives.head?.map (fun alternative => form alternative.value) =
          firstForm rules form answer (form current) := by
  refine (simplifyCurrent_foretold existing answers settles present).imp ?_
  rintro alternatives after ⟨wider, included, settling, known, foretells⟩
  refine ⟨wider, included, settling, known, ?_⟩
  rw [firstForm_eq answer structural respects, ← List.head?_map, foretells, List.head?_filterMap]

/-- Taking first alternatives leads to a node without any where the first forms come to an end. -/
theorem leadsTo_of_ceases {count : Nat} {first last : φ}
    (ceases : Ceases (firstForm rules form answer) first count last) {node : ν} (starts : form node = first)
    {session : Session σ} (settles : settled nodes session) (present : node ∈ nodes) :
    ∃ final, LeadsTo environment rules node session count final ∧ form final = last := by
  suffices arrives : ∃ final between after,
      firstAlternatives environment rules count node session = .ok (some final) between ∧
        simplifyCurrent environment rules final between = .ok [] after ∧ form final = last by
    obtain ⟨final, between, after, leads, ends, reached⟩ := arrives
    exact ⟨final, .of_arrives leads ends, reached⟩
  induction ceases generalizing node nodes session with
  | here none =>
    obtain ⟨alternatives, after, found, -, -, -, -, foretells⟩ :=
      (head?_simplifyCurrent existing answers structural respects settles present).returned
    rw [starts, none, Option.map_eq_none_iff, List.head?_eq_none_iff] at foretells
    exact ⟨node, session, after, rfl, foretells ▸ found, starts⟩
  | onward step rest ih =>
    obtain ⟨alternatives, middle, found, wider, -, settling, known, foretells⟩ :=
      (head?_simplifyCurrent existing answers structural respects settles present).returned
    rw [starts, step] at foretells
    obtain ⟨alternative, first, same⟩ := Option.map_eq_some_iff.mp foretells
    obtain ⟨final, between, after, leads, ends, reached⟩ :=
      ih same settling (known alternative (List.mem_of_mem_head? first))
    refine ⟨final, between, after, ?_, ends, reached⟩
    rw [firstAlternatives, bind_of_ok found]
    simp only [first, leads]

/-- A replacement is of the form that comes first, and what is done with it goes on from there. -/
theorem replaceThen_ceases (outermost : Bool) {next : ν → Run ν σ (Outcome ν)}
    (goes : ∀ node wider middle, settled wider (Ledger.toSession middle) → root ∈ wider → node ∈ wider →
      Ends (next node) middle
        (ArrivesBy settled (firstForm rules form answer) form wider (form node))
        fun interruption _ => interruption = .outOfSteps)
    (settles : settled nodes ledger.toSession) (rooted : root ∈ nodes) (present : current ∈ nodes) :
    Ends (replaceThen environment rules root outermost next current) ledger
      (ArrivesBy settled (firstForm rules form answer) form nodes (form current))
      fun interruption _ => interruption = .outOfSteps := by
  have callRooted : (if outermost then current else root) ∈ nodes := by
    cases outermost
    · exact rooted
    · exact present
  refine .bind ((firstReplacement_foretold existing answers (fun _ member => member) settles callRooted
    present).mono ?_ fun _ _ stopped => stopped.elim)
  rintro replacement? middle ⟨wider, included, settling, known, foretells⟩
  have follows := foretells.trans (firstForm_eq answer structural respects current).symm
  cases replacement? with
  | none => exact .pure ⟨wider, included, settling, included present, rfl, 0, .here follows.symm⟩
  | some replacement =>
    obtain ⟨joined, quiet⟩ := known replacement rfl
    simp only [quiet]
    refine (goes _ wider middle settling (included rooted) joined).imp ?_
    rintro outcome after ⟨widest, further, settling, reached, idle, count, ceases⟩
    exact ⟨widest, le_trans included further, settling, reached, idle, count + 1, .onward follows.symm ceases⟩

/-- A fixpoint is where the first forms come to an end, and replacing a node stops short only for want of steps. -/
theorem replaceRepeatedly_ceases (outermost : Bool) (steps : Nat) (settles : settled nodes ledger.toSession)
    (rooted : root ∈ nodes) (present : current ∈ nodes) :
    Ends (replaceRepeatedly environment rules root outermost steps current) ledger
      (ArrivesBy settled (firstForm rules form answer) form nodes (form current))
      fun interruption _ => interruption = .outOfSteps := by
  induction steps generalizing current nodes ledger with
  | zero =>
    exact replaceThen_ceases existing answers structural respects outermost (fun _ _ _ _ _ _ => rfl) settles rooted
      present
  | succ steps ih =>
    exact replaceThen_ceases existing answers structural respects outermost
      (fun _ _ _ settling rooted joined => ih settling rooted joined) settles rooted present

variable [LawfulTree ν] (habitat : SessionHabitat settled)
include habitat

/-- At each node, simplification arrives where the first forms lead to from a copy of the node over what the children
have become. -/
theorem fold_simplifyNode_comes (node : ν) (settles : settled nodes ledger.toSession) (rooted : root ∈ nodes)
    (present : node ∈ nodes) :
    Ends (Tree.fold (simplifyNode ⟨environment, rules, patience⟩ root) node) ledger
      (fun result after => (Onward (InSession settled) nodes after fun wider => result ∈ wider) ∧
        ∃ results id count, List.Forall₂ (fun child result => Comes environment rules settled form child (form result))
            (Tree.children node) results ∧
          Ceases (firstForm rules form answer) (form (Tree.copyOver node results id)) count (form result))
      fun interruption _ => interruption = .outOfSteps := by
  induction node using Tree.childInduction generalizing nodes ledger with
  | step node ih =>
    let fits (nodes : Set ν) (ledger : Ledger ν σ) : Prop :=
      settled nodes ledger.toSession ∧ root ∈ nodes ∧ node ∈ nodes
    let holds (nodes : Set ν) (child result : ν) : Prop :=
      result ∈ nodes ∧ Comes environment rules settled form child (form result)
    rw [Tree.fold_eq]
    refine .bind ((Ends.mapM fits holds ?_ (Tree.children node) ?_ ⟨settles, rooted, present⟩).imp ?_)
    · rintro nodes wider child result included ⟨joined, comes⟩
      exact ⟨included joined, comes⟩
    · rintro child member nodes ledger ⟨settles, rooted, present⟩
      have known := (habitat.arena _ _ settles).closed node present child member
      refine ((ih child member settles rooted known).and (whenReturns_iff.mpr fun _ _ found => found)).mono ?_
        fun _ _ stopped => stopped.1
      rintro result after ⟨⟨⟨wider, included, settling, joined⟩, -⟩, found⟩
      exact ⟨wider, included, ⟨settling, included rooted, included present⟩, joined, patience, nodes, root, ledger,
        result, after, settles, rooted, known, found, rfl⟩
    · rintro results middle ⟨between, included, ⟨settling, rooted, present⟩, visited⟩
      have size := visited.length_eq
      have joined := forall_mem_of_forall₂ visited fun _ _ held => held.1
      refine .bind (((habitat.arena _ _ settling).rebuild_returns present size joined).mono ?_
        fun _ _ stopped => stopped.elim)
      rintro current later ⟨offspring, rebuilt⟩
      obtain ⟨id, wide, further, fitting, known, same⟩ : ∃ id wide, between ⊆ wide ∧ settled wide later.toSession ∧
          current ∈ wide ∧ form current = form (Tree.copyOver node results id) := by
        rcases rebuilt with ⟨rfl, rfl⟩ | ⟨rfl, rfl, -⟩
        · refine ⟨⟨0⟩, between, subset_rfl, settling, present, ?_⟩
          rw [← offspring, structural.recopied]
        · exact ⟨_, _, Set.subset_insert _ _, habitat.copied _ _ _ _ settling present size.symm joined,
            Set.mem_insert _ _, rfl⟩
      have callRooted : (if sameNode node root then current else root) ∈ wide := by
        split
        · exact known
        · exact further rooted
      refine .bind ((replaceRepeatedly_ceases existing answers structural respects _ _ fitting callRooted known).imp ?_)
      rintro ⟨result, reExploredBy⟩ after ⟨widest, most, final, reached, idle, count, ceases⟩
      obtain rfl : reExploredBy = none := idle
      exact .pure ⟨⟨widest, le_trans included (le_trans further most), final, reached⟩, results, id, count,
        visited.imp fun _ _ held => held.2, same ▸ ceases⟩

/-- What a node comes to is of one form, wherever and whenever it is simplified. -/
theorem Comes.unique {node : ν} {one other : φ} (first : Comes environment rules settled form node one)
    (second : Comes environment rules settled form node other) : one = other := by
  induction node using Tree.childInduction generalizing one other with
  | step node ih =>
    obtain ⟨_, _, _, _, _, _, settles, rooted, present, found, rfl⟩ := first
    obtain ⟨_, _, _, _, _, _, settling, rooting, presence, ran, rfl⟩ := second
    obtain ⟨-, results, id, count, visited, ceases⟩ :=
      (fold_simplifyNode_comes existing answers structural respects habitat node settles rooted present).at_ok found
    obtain ⟨-, twins, otherId, size, revisited, ceasing⟩ :=
      (fold_simplifyNode_comes existing answers structural respects habitat node settling rooting presence).at_ok ran
    have same : results.map form = twins.map form :=
      map_eq_of_forall₂ (fun child member _ _ one other => ih child member one other) visited revisited
    rw [structural.copied node results twins id otherId visited.length_eq.symm same] at ceases
    exact ceases.unique ceasing

omit existing answers structural respects habitat [LawfulTree ν] in
/-- What simplification returns for a tree, it can turn the tree into wherever that occurs. -/
theorem simplify_comes {session : Session σ} (settles : settled nodes session) (present : root ∈ nodes) :
    WhenReturns (simplify ⟨environment, rules, patience⟩ root) session fun simplified _ =>
      Comes environment rules settled form root (form simplified.value) := by
  unfold simplify
  rw [Tree.mapPostOrder_eq_fold]
  refine .bind (onFreshLedger_ends (whenReturns_iff.mpr fun result after found => .pure ?_))
  exact ⟨patience, nodes, root, _, result, after, settles, present, present, found, rfl⟩

/-- If simplification returns each child of a tree as it is, but for identities, then it comes to where first forms
lead to from the tree. -/
theorem simplify_ceases
    (unchanged : ∀ child ∈ Tree.children root, Comes environment rules settled form child (form child))
    {session : Session σ} (settles : settled nodes session) (present : root ∈ nodes) :
    Ends (simplify ⟨environment, rules, patience⟩ root) session
      (fun simplified _ =>
        ∃ count, Ceases (firstForm rules form answer) (form root) count (form simplified.value))
      fun interruption _ => interruption = .outOfSteps := by
  unfold simplify
  rw [Tree.mapPostOrder_eq_fold]
  refine .bind (onFreshLedger_ends
    ((fold_simplifyNode_comes existing answers structural respects habitat root settles present present).imp ?_))
  rintro result after ⟨-, results, id, count, visited, ceases⟩
  have same : results.map form = (Tree.children root).map form := by
    refine map_eq_of_forall₂ (fun child _ _ _ one other => ?_) visited (List.forall₂_same.mpr unchanged)
    exact Comes.unique existing answers structural respects habitat one other
  rw [structural.copied root results _ id id visited.length_eq.symm same, structural.recopied] at ceases
  exact .pure ⟨count, ceases⟩

end Runs
end QueryOptimizer
