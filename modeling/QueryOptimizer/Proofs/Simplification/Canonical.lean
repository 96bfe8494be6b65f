import QueryOptimizer.Proofs.Rule.Contract
import QueryOptimizer.Proofs.Simplification.Fixpoint

/-!
Simplification to a form that is fixed beforehand. If no replacement changes the form that a tree is to come to,
and a node that all rules leave in place is plain, then simplification leads to a tree of that form with nothing
but plain nodes, in whatever order the rules are tried.
-/
namespace QueryOptimizer
variable {ν ω σ : Type} [Tree ν ω]

/-- What is assumed of a replacement while the nodes exist: it is of the same form, over nodes that were below the
replaced one, and deserves less patience. -/
structure Improves {φ : Type} (patience : ν → Nat) (form : ν → φ) (nodes : Set ν) (current node : ν) : Prop where
  present : node ∈ nodes
  same : form node = form current
  down : ∀ child ∈ Tree.children node, Tree.Below current child
  lighter : patience node < patience current

/-- A replacement that improves a node is another node. -/
theorem Improves.different {φ : Type} {patience : ν → Nat} {form : ν → φ} {nodes : Set ν} {current node : ν}
    (improves : Improves patience form nodes current node) {supply : Supply} (arena : Arena nodes supply)
    (present : current ∈ nodes) : ¬ sameNode node current = true := by
  intro same
  have lower := improves.lighter
  rw [arena.distinct node improves.present current present (sameNode_iff.mp same)] at lower
  exact Nat.lt_irrefl _ lower

/-- The form of a tree is determined by its root and the forms of the children. -/
def Composed {φ : Type} (form : ν → φ) : Prop :=
  ∀ node mapped id, List.Forall₂ (fun child result => form result = form child) (Tree.children node) mapped →
    form (Tree.copyOver node mapped id) = form node

omit [Tree ν ω] in
theorem map_eq_of_alike {φ : Type} {form : ν → φ} {nodes mapped : List ν}
    (alike : List.Forall₂ (fun node result => form result = form node) nodes mapped) :
    mapped.map form = nodes.map form := by
  induction alike with
  | nil => rfl
  | cons first _ ih => rw [List.map_cons, List.map_cons, first, ih]

section Rebuild
variable [LawfulTree ν] {settled : Set ν → Session σ → Prop} (habitat : SessionHabitat settled)
variable {φ : Type} {form : ν → φ}
include habitat

/-- A node rebuilt over children of the same forms is of the same form. -/
theorem rebuild_form (composed : Composed form) {nodes : Set ν} {ledger : Ledger ν σ}
    (settles : settled nodes ledger.toSession) {node : ν} (present : node ∈ nodes) {mapped : List ν}
    (joined : ∀ result ∈ mapped, result ∈ nodes)
    (alike : List.Forall₂ (fun child result => form result = form child) (Tree.children node) mapped) :
    Returns (Tree.rebuild node mapped : Run ν σ ν) ledger fun current after =>
      Onward (fun nodes (ledger : Ledger ν σ) => settled nodes ledger.toSession) nodes after fun wider =>
        current ∈ wider ∧ Tree.children current = mapped ∧ form current = form node := by
  refine ((habitat.arena _ _ settles).rebuild_returns present alike.length_eq joined).imp ?_
  rintro current after ⟨offspring, ⟨rfl, rfl⟩ | ⟨rfl, rfl, -⟩⟩
  · exact ⟨nodes, subset_rfl, settles, present, offspring, rfl⟩
  · exact ⟨_, Set.subset_insert _ _, habitat.copied _ _ _ _ settles present alike.length_eq.symm joined,
      Set.mem_insert _ _, offspring, composed _ _ _ alike⟩

end Rebuild

variable [DecidableEq ω]

section Idle
variable {W : Type} {setting : Setting ν ω (Call ν → RuleM σ (Response ν))} {fits looser : W → Ledger ν σ → Prop}
variable {keeps weaker : W → ν → Prop} {node : ν}

theorem Idle.imp (idle : Idle setting fits keeps node)
    (fitted : ∀ world ledger, fits world ledger → looser world ledger)
    (kept : ∀ world, keeps world node → weaker world node) : Idle setting looser weaker node := by
  intro application member
  obtain ⟨world, ledger, root, yielded?, after, fit, keep, called, vain⟩ := idle application member
  exact ⟨world, ledger, root, yielded?, after, fitted world ledger fit, kept world keep, called, vain⟩

variable {rule : SimplificationRule ν ω σ} {bindings : Bindings ν}

/-- Of what every call of a rule comes to at an idle node, it is not a replacement. -/
theorem Idle.declined (idle : Idle setting fits keeps node) (isRule : rule ∈ setting.rules.rules)
    (offered : rule.rootOperator?.all (· = Tree.operator node) = true)
    (matched : bindings ∈ rule.pattern.allMatches .empty node) {declined : Prop}
    (calls : ∀ world ledger root, fits world ledger → keeps world node →
      Returns (callRule setting.environment rule root node bindings) ledger fun yielded? _ =>
        declined ∨ ∃ yielded, yielded? = some yielded ∧ ¬ sameNode yielded.node node = true) : declined := by
  obtain ⟨world, ledger, root, yielded?, after, fit, keep, called, vain⟩ :=
    idle (rule, bindings) (mem_applications.mpr ⟨⟨isRule, offered⟩, matched⟩)
  rcases (calls world ledger root fit keep).at_ok called with declined | ⟨yielded, found, different⟩
  · exact declined
  · exact absurd (vain yielded found) different

/-- A rule whose steps lead to other nodes has declined a node that it matches and is idle at. -/
theorem Idle.declines (idle : Idle setting fits keeps node) (isRule : rule ∈ setting.rules.rules)
    (offered : rule.rootOperator?.all (· = Tree.operator node) = true)
    (matched : bindings ∈ rule.pattern.allMatches .empty node) {reExplore : Bool} {declines : ν → Prop}
    {step : Table ν Constraint → Session σ → ν → ν → Constraint → Session σ → Prop}
    (conforms : Conforms setting.environment rule reExplore declines step)
    (replaces : ∀ world ledger replacement constraint after, fits world ledger → keeps world node →
      step ledger.constraints ledger.toSession node replacement constraint after →
        ¬ sameNode replacement node = true) : declines node := by
  refine idle.declined isRule offered matched ?_
  intro world ledger root fit keep
  refine (conforms.callRule root matched ledger).imp ?_
  rintro yielded? after (⟨session, rfl, -, -, declined⟩ | ⟨replacement, constraint, session, rfl, -, taken⟩)
  · exact .inl declined
  · exact .inr ⟨_, rfl, replaces _ _ _ _ _ fit keep taken⟩

end Idle

section Canonical
variable [LawfulTree ν] {settled : Set ν → Session σ → Prop} (habitat : SessionHabitat settled)
variable {setting : Setting ν ω (Call ν → RuleM σ (Response ν))} {φ : Type} (form : ν → φ) (plain : ν → Prop)
include habitat

/-- Simplification comes to the form of the tree, with nothing but plain nodes. -/
theorem simplify_reaches (composed : Composed form)
    (calls : ∀ nodes ledger root current, settled nodes ledger.toSession → current ∈ nodes →
      ThroughoutBelow plain current → ∀ application ∈ applications setting.rules current,
        Returns (callRule setting.environment application.1 root current application.2) ledger fun yielded? after =>
          ∃ wider, nodes ⊆ wider ∧ settled wider after.toSession ∧ ∀ yielded, yielded? = some yielded →
            yielded.reExplore = false ∧ Improves setting.patience form wider current yielded.node)
    (finishes : ∀ node, ThroughoutBelow plain node →
      Idle setting (fun nodes ledger => settled nodes ledger.toSession) (fun nodes node => node ∈ nodes) node →
        plain node)
    {root : ν} {nodes : Set ν} {session : Session σ} (settles : settled nodes session) (present : root ∈ nodes) :
    Returns (simplify setting root) session fun simplified after =>
      ∃ wider, nodes ⊆ wider ∧ settled wider after ∧ simplified.value ∈ wider ∧
        Throughout plain simplified.value ∧ form simplified.value = form root := by
  let fits (nodes : Set ν) (ledger : Ledger ν σ) : Prop := settled nodes ledger.toSession ∧ root ∈ nodes
  let underway (nodes : Set ν) (original node : ν) : Prop :=
    node ∈ nodes ∧ ThroughoutBelow plain node ∧ form node = form original
  let done (nodes : Set ν) (original node : ν) : Prop :=
    node ∈ nodes ∧ Throughout plain node ∧ form node = form original
  refine (simplify_finishes setting fits underway done root ?_ ?_ ?_ ?_ ⟨settles, present⟩).imp ?_
  · rintro nodes wider original node included ⟨known, rest⟩
    exact ⟨included known, rest⟩
  · rintro nodes ledger node mapped ⟨settles, rooted⟩ within below
    have alike : List.Forall₂ (fun child result => form result = form child) (Tree.children node) mapped :=
      below.imp fun _ _ held => held.2.2
    refine (rebuild_form habitat composed settles ((habitat.arena _ _ settles).subtree rooted within)
      (forall_mem_of_forall₂ below fun _ _ held => held.1) alike).imp ?_
    rintro current after ⟨wider, included, settles, known, offspring, same⟩
    refine ⟨wider, included, ⟨settles, included rooted⟩, known, ?_, same⟩
    rw [ThroughoutBelow, offspring]
    exact forall_mem_of_forall₂ below fun _ _ held => held.2.1
  · intro original
    refine ⟨?_, ?_⟩
    · rintro nodes wider node included ⟨known, rest⟩
      exact ⟨included known, rest⟩
    · rintro nodes ledger callRoot current ⟨settles, rooted⟩ ⟨known, below, same⟩ application member
      refine (calls nodes ledger callRoot current settles known below application member).imp ?_
      rintro yielded? after ⟨wider, included, settles, replaced⟩
      refine ⟨wider, included, ⟨settles, included rooted⟩, ?_⟩
      intro yielded found _
      obtain ⟨quiet, improves⟩ := replaced yielded found
      rw [Advances, quiet]
      exact ⟨⟨improves.present, fun child member => below.of_below (improves.down child member),
        improves.same.trans same⟩, improves.lighter⟩
  · rintro nodes original node ⟨known, below, same⟩ idle
    have left := idle.imp (fun _ _ fit => fit.1) fun _ keep => keep.1
    exact ⟨known, throughout_iff.mpr ⟨finishes node below left, below⟩, same⟩
  · rintro simplified after ⟨wider, constraints, included, ⟨settles, -⟩, ⟨known, all, same⟩, -⟩
    exact ⟨wider, included, settles, known, all, same⟩

end Canonical
end QueryOptimizer
