import QueryOptimizer.Proofs.Simplification.Fixpoint
import QueryOptimizer.Proofs.Tree.Arena

/-!
Simplification always comes to an end when every replacement lowers a weight: whatever a node becomes
is that node itself or lighter.
-/
namespace QueryOptimizer
variable {ν ω σ : Type} [Tree ν ω]

/-- A weight of nodes in which the children of a node are counted. -/
def Additive (weight : ν → Nat) : Prop :=
  ∀ node mapped id, mapped.length = (Tree.children node).length →
    weight (Tree.copyOver node mapped id) + totalOf weight (Tree.children node) =
      weight node + totalOf weight mapped

/-- What a node became is that very node, or has less weight. -/
def Lightened (weight : ν → Nat) (original node : ν) : Prop :=
  node = original ∨ weight node < weight original

variable {weight : ν → Nat}

theorem Lightened.le {original node : ν} (lightened : Lightened weight original node) :
    weight node ≤ weight original := by
  rcases lightened with rfl | lower
  · exact Nat.le_refl _
  · exact Nat.le_of_lt lower

theorem Lightened.lt {original node : ν} (lightened : Lightened weight original node)
    (changed : ¬ sameNode original node = true) : weight node < weight original := by
  rcases lightened with rfl | lower
  · exact False.elim (changed (sameNode_iff.mpr rfl))
  · exact lower

theorem totalOf_le_of_lightened {originals nodes : List ν}
    (lightened : List.Forall₂ (Lightened weight) originals nodes) :
    totalOf weight nodes ≤ totalOf weight originals := by
  induction lightened with
  | nil => exact Nat.le_refl _
  | cons first _ ih => exact Nat.add_le_add first.le ih

theorem totalOf_lt_of_lightened {originals nodes : List ν}
    (lightened : List.Forall₂ (Lightened weight) originals nodes)
    (changed : ∃ pair ∈ originals.zip nodes, ¬ sameNode pair.1 pair.2 = true) :
    totalOf weight nodes < totalOf weight originals := by
  induction lightened with
  | nil => simp at changed
  | cons first rest ih =>
    obtain ⟨pair, member, different⟩ := changed
    rw [List.zip_cons_cons] at member
    rcases List.mem_cons.mp member with rfl | later
    · exact Nat.add_lt_add_of_lt_of_le (first.lt different) (totalOf_le_of_lightened rest)
    · exact Nat.add_lt_add_of_le_of_lt first.le (ih ⟨pair, later, different⟩)

/-- A node over lighter children is lighter. -/
theorem rebuild_lightened {S : Type} [Supplied S] (additive : Additive weight) {node : ν} {mapped : List ν}
    {state : S} (lightened : List.Forall₂ (Lightened weight) (Tree.children node) mapped) :
    Returns (Tree.rebuild node mapped : EStateM Interruption S ν) state fun result after =>
      (after = state ∨ after = Supplied.withSupply state (Supplied.supply state).draw.2) ∧
        Lightened weight node result := by
  refine (Tree.rebuild_returns lightened.length_eq).imp ?_
  intro result after outcome
  rcases outcome with ⟨rfl, rfl, -⟩ | ⟨rfl, rfl, changed⟩
  · exact ⟨.inl rfl, .inl rfl⟩
  · refine ⟨.inr rfl, .inr ?_⟩
    have counted := additive node mapped (Supplied.supply state).draw.1 lightened.length_eq.symm
    have lower := totalOf_lt_of_lightened lightened changed
    omega

/-- Rules that never ask for re-exploration and lower the weight with every replacement simplify every
tree. -/
theorem simplify_lightens [DecidableEq ω] (setting : Setting ν ω (Call ν → RuleM σ (Response ν)))
    (additive : Additive weight) (patient : setting.patience = weight)
    (calls : ∀ (ledger : Ledger ν σ) root current, ∀ application ∈ applications setting.rules current,
      Returns (callRule setting.environment application.1 root current application.2) ledger
        fun yielded? after => ledger.supply.allocated ≤ after.supply.allocated ∧
          ∀ yielded, yielded? = some yielded →
            yielded.reExplore = false ∧ weight yielded.node < weight current)
    (root : ν) (session : Session σ) :
    Returns (simplify setting root) session fun simplified after =>
      session.supply.allocated ≤ after.supply.allocated ∧ Lightened weight root simplified.value := by
  let fits (allocated : Nat) (ledger : Ledger ν σ) : Prop := allocated ≤ ledger.supply.allocated
  refine (simplify_returns setting fits (fun _ => Lightened weight) root (fun _ _ _ _ _ held => held) ?_ ?_
    (Nat.le_refl session.supply.allocated)).imp ?_
  · intro allocated ledger node mapped fit _ below
    refine (rebuild_lightened additive below).imp ?_
    intro result after outcome
    obtain ⟨rfl | rfl, held⟩ := outcome
    · exact ⟨allocated, Nat.le_refl _, fit, held⟩
    · exact ⟨allocated, Nat.le_refl _, Nat.le_succ_of_le fit, held⟩
  · intro original
    refine ⟨fun _ _ _ _ held => held, ?_⟩
    intro allocated ledger callRoot current fit held application member
    refine (calls ledger callRoot current application member).imp ?_
    intro yielded? after outcome
    obtain ⟨more, lower⟩ := outcome
    refine ⟨allocated, Nat.le_refl _, Nat.le_trans fit more, ?_⟩
    intro yielded found _
    obtain ⟨quiet, lighter⟩ := lower yielded found
    rw [Advances, quiet, patient]
    exact ⟨.inr (Nat.lt_of_lt_of_le lighter held.le), lighter⟩
  · intro simplified after ended
    obtain ⟨later, constraints, extended, fitted, held, -⟩ := ended
    exact ⟨Nat.le_trans extended fitted, held⟩

end QueryOptimizer
