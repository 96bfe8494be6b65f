import Mathlib
import QueryOptimizer.Proofs.Semantics
import QueryOptimizer.Proofs.Simplification.Call
import QueryOptimizer.Proofs.Simplification.Weight
import QueryOptimizer.Proofs.Tree.Descent

/-!
Where the nodes of a simplified tree come from. Every node stands for a position of the original tree,
its children stand for positions that the value of that position is determined by, and the constraint
recorded for the node is enough for that. No constraint of a node that has been left out is needed, so
rules are free to drop those of nodes that no longer matter.
-/
namespace QueryOptimizer
variable {ν ω β : Type} [Tree ν ω]

/-- How trees are evaluated: a node from the values of its children, whatever its identity. -/
structure Interpretation (ν β : Type) {ω : outParam Type} [Tree ν ω] where
  eval : Valuation → ν → Option β
  apply : Valuation → ν → List β → Option β
  eval_eq : ∀ valuation node,
    eval valuation node = ((Tree.children node).mapM (eval valuation)).bind (apply valuation node)
  apply_copyOver : ∀ valuation node nodes id values,
    apply valuation (Tree.copyOver node nodes id) values = apply valuation node values

/-- Where the one has a value, the other has the same. -/
def Refines (original simplified : Option β) : Prop :=
  ∀ value, original = some value → simplified = some value

theorem mapM_eq_some_iff {α : Type} {step : α → Option β} {elements : List α} {results : List β} :
    elements.mapM step = some results ↔ elements.map step = results.map some := by
  induction elements generalizing results with
  | nil => cases results <;> simp
  | cons element rest ih =>
    rw [List.mapM_cons]
    cases results with
    | nil =>
      simp only [List.map_cons, List.map_nil, List.cons_ne_nil, iff_false]
      intro found
      obtain ⟨_, _, found⟩ := Option.bind_eq_some_iff.mp found
      obtain ⟨_, _, found⟩ := Option.bind_eq_some_iff.mp found
      cases found
    | cons result others =>
      constructor
      · intro found
        obtain ⟨_, first, found⟩ := Option.bind_eq_some_iff.mp found
        obtain ⟨_, later, found⟩ := Option.bind_eq_some_iff.mp found
        cases found
        rw [List.map_cons, List.map_cons, first, ih.mp later]
      · intro found
        simp only [List.map_cons, List.cons.injEq] at found
        rw [found.1, ih.mpr found.2]
        rfl

/-- The node stands for a position with the given value: each of its children stands for a position,
and whenever the constraint recorded for the node holds, those positions determine the value. -/
inductive StandsFor (interpretation : Interpretation ν β) (constraints : Table ν Constraint) :
    (Valuation → Option β) → ν → Prop where
  | intro {meaning : Valuation → Option β} {node : ν} (positions : List ((Valuation → Option β) × ν))
      (operands : positions.map Prod.snd = Tree.children node)
      (below : ∀ position ∈ positions, StandsFor interpretation constraints position.1 position.2)
      (determined : ∀ valuation, (constraints.recorded node).Holds valuation.parameters →
        ∀ value, meaning valuation = some value →
          ∃ values, positions.map (fun position => position.1 valuation) = values.map some ∧
            interpretation.apply valuation node values = some value) :
      StandsFor interpretation constraints meaning node

namespace StandsFor
variable {interpretation : Interpretation ν β} {constraints : Table ν Constraint}
variable {meaning : Valuation → Option β} {node : ν}

theorem mono {later : Table ν Constraint} (extended : constraints ≤ later)
    (stands : StandsFor interpretation constraints meaning node) :
    StandsFor interpretation later meaning node := by
  induction stands with
  | intro positions operands below determined ih =>
    refine .intro positions operands ih ?_
    intro valuation holds
    exact determined valuation fun condition member => holds condition (extended _ condition member)

/-- Under the constraints recorded in the tree, the node has the value of the position. -/
theorem refines (stands : StandsFor interpretation constraints meaning node) {valuation : Valuation}
    (holds : ∀ inner ∈ Tree.postOrder node, (constraints.recorded inner).Holds valuation.parameters) :
    Refines (meaning valuation) (interpretation.eval valuation node) := by
  induction stands with
  | @intro meaning node positions operands below determined ih =>
    intro value found
    obtain ⟨values, known, applied⟩ :=
      determined valuation (holds node (Tree.root_mem_postOrder node)) value found
    have evaluated : (Tree.children node).map (interpretation.eval valuation) = values.map some := by
      rw [← known, ← operands, List.map_map]
      apply List.map_congr_left
      intro position member
      have child : position.2 ∈ Tree.children node := operands ▸ List.mem_map_of_mem member
      have present : position.1 valuation ∈ values.map some :=
        known ▸ List.mem_map_of_mem (f := fun position => position.1 valuation) member
      obtain ⟨operand, -, same⟩ := List.mem_map.mp present
      rw [← same]
      exact ih position member
        (fun inner within => holds inner (Tree.mem_postOrder_of_child child within)) operand same.symm
    rw [interpretation.eval_eq, mapM_eq_some_iff.mpr evaluated]
    exact applied

/-- Nodes that stand for values one by one are positions with these values. -/
theorem exists_positions {meanings : List (Valuation → Option β)} {nodes : List ν}
    (below : List.Forall₂ (StandsFor interpretation constraints) meanings nodes) :
    ∃ positions : List ((Valuation → Option β) × ν), positions.map Prod.fst = meanings ∧
      positions.map Prod.snd = nodes ∧
      ∀ position ∈ positions, StandsFor interpretation constraints position.1 position.2 :=
  ⟨meanings.zip nodes, List.map_fst_zip below.length_eq.le, List.map_snd_zip below.length_eq.ge,
    fun _ member => List.forall₂_zip below member⟩

/-- A node stands for a position if its children stand for values that determine the value there. -/
theorem of_children {meanings : List (Valuation → Option β)}
    (below : List.Forall₂ (StandsFor interpretation constraints) meanings (Tree.children node))
    (determined : ∀ valuation, (constraints.recorded node).Holds valuation.parameters →
      ∀ value, meaning valuation = some value →
        ∃ values, meanings.map (fun inner => inner valuation) = values.map some ∧
          interpretation.apply valuation node values = some value) :
    StandsFor interpretation constraints meaning node := by
  obtain ⟨positions, rfl, operands, stand⟩ := exists_positions below
  refine .intro positions operands stand ?_
  intro valuation holds value found
  obtain ⟨values, known, applied⟩ := determined valuation holds value found
  rw [List.map_map] at known
  exact ⟨values, known, applied⟩

/-- A node stands for the position that it is a copy of, if its children stand for the children
there. -/
theorem copied {original copy : ν}
    (same : ∀ valuation values,
      interpretation.apply valuation copy values = interpretation.apply valuation original values)
    (below : List.Forall₂ (fun child => StandsFor interpretation constraints fun valuation =>
      interpretation.eval valuation child) (Tree.children original) (Tree.children copy)) :
    StandsFor interpretation constraints (fun valuation => interpretation.eval valuation original) copy := by
  refine .of_children (List.forall₂_map_left_iff.mpr below) ?_
  intro valuation _ value found
  rw [interpretation.eval_eq] at found
  obtain ⟨values, evaluated, applied⟩ := Option.bind_eq_some_iff.mp found
  refine ⟨values, ?_, by rw [same]; exact applied⟩
  rw [← mapM_eq_some_iff.mp evaluated, List.map_map]
  rfl

/-- A node stands for its own value. -/
theorem itself (node : ν) :
    StandsFor interpretation constraints (fun valuation => interpretation.eval valuation node) node := by
  induction node using Tree.childInduction with
  | step node ih => exact .copied (fun _ _ => rfl) (List.forall₂_same.mpr ih)

/-- What replaces a node that stands for a position stands for it as well, if the constraint of the
replacement and those recorded for both nodes together are enough to determine the value. -/
theorem replaced {current : ν} {constraint : Constraint}
    (positions : List ((Valuation → Option β) × ν))
    (operands : positions.map Prod.snd = Tree.children node)
    (below : ∀ position ∈ positions, StandsFor interpretation constraints position.1 position.2)
    (determined : ∀ valuation, (constraints.recorded node).Holds valuation.parameters →
      (constraints.recorded current).Holds valuation.parameters → constraint.Holds valuation.parameters →
      ∀ value, meaning valuation = some value →
        ∃ values, positions.map (fun position => position.1 valuation) = values.map some ∧
          interpretation.apply valuation node values = some value) :
    StandsFor interpretation (attachConstraint constraints current node constraint) meaning node := by
  refine .intro positions operands (fun position member => (below position member).mono ?_) ?_
  · exact Table.le_attach _ _ _ _
  · intro valuation holds
    have attached (condition : Condition) :
        condition ∈ ((attachConstraint constraints current node constraint).recorded node).conditions ↔
          condition ∈ (constraints.recorded node).conditions ∨ identity node = identity node ∧
            (condition ∈ (constraints.recorded current).conditions ∨ condition ∈ constraint.conditions) :=
      Table.recorded_attach
    apply determined valuation
    · exact fun condition member => holds condition ((attached condition).mpr (.inl member))
    · exact fun condition member => holds condition ((attached condition).mpr (.inr ⟨rfl, .inl member⟩))
    · exact fun condition member => holds condition ((attached condition).mpr (.inr ⟨rfl, .inr member⟩))

/-- A leaf stands for whatever the replaced node stood for, if both constraints together give it that
value. -/
theorem leaf {current : ν} {constraint : Constraint} (leaf : Tree.children node = [])
    (same : ∀ valuation, (constraints.recorded current).Holds valuation.parameters →
      constraint.Holds valuation.parameters →
      ∀ value, meaning valuation = some value → interpretation.apply valuation node [] = some value) :
    StandsFor interpretation (attachConstraint constraints current node constraint) meaning node := by
  refine .replaced [] leaf.symm (fun _ member => nomatch member) ?_
  intro valuation _ currentHolds holds value found
  exact ⟨[], rfl, same valuation currentHolds holds value found⟩

/-- A node that has the value of a position takes it over, whatever else it stands for. -/
theorem takesOver {current kept : ν} {constraint : Constraint} {inner : Valuation → Option β}
    (stands : StandsFor interpretation constraints inner kept)
    (same : ∀ valuation, (constraints.recorded current).Holds valuation.parameters →
      constraint.Holds valuation.parameters →
      ∀ value, meaning valuation = some value → inner valuation = some value) :
    StandsFor interpretation (attachConstraint constraints current kept constraint) meaning kept := by
  cases stands with
  | intro positions operands below determined =>
    refine .replaced positions operands below ?_
    intro valuation keptHolds currentHolds holds value found
    exact determined valuation keptHolds value (same valuation currentHolds holds value found)

end StandsFor

theorem Carries.holds {constraints : Table ν Constraint} {constraint : Constraint} {nodes : List ν}
    (carries : Carries constraints constraint nodes) {parameters : Parameters}
    (holds : constraint.Holds parameters) {node : ν} (member : node ∈ nodes) :
    (constraints.recorded node).Holds parameters :=
  fun condition recorded => holds condition (carries node member condition recorded)

/-- What is required of the nodes that exist at a time: they are an arena, later supplies are as good,
and copies of them can join. -/
structure Habitat (settled : Set ν → Supply → Prop) : Prop where
  arena : ∀ nodes supply, settled nodes supply → Arena nodes supply
  later : ∀ nodes (supply later : Supply), settled nodes supply → supply.allocated ≤ later.allocated →
    settled nodes later
  copied : ∀ nodes supply node mapped, settled nodes supply → node ∈ nodes →
    mapped.length = (Tree.children node).length → (∀ child ∈ mapped, child ∈ nodes) →
    settled (insert (Tree.copyOver node mapped supply.draw.1) nodes) supply.draw.2

section Sound
variable [LawfulTree ν] {σ : Type}

/-- A node that is rebuilt over nodes that stand for its children stands for itself. -/
theorem rebuild_stands {interpretation : Interpretation ν β} {settled : Set ν → Supply → Prop}
    (habitat : Habitat settled) {nodes : Set ν} {ledger : Ledger ν σ} (settles : settled nodes ledger.supply)
    {node : ν} {mapped : List ν} (known : node ∈ nodes)
    (below : List.Forall₂ (fun child result => result ∈ nodes ∧
      StandsFor interpretation ledger.constraints (fun valuation => interpretation.eval valuation child) result)
      (Tree.children node) mapped) :
    Returns (Tree.rebuild node mapped : Run ν σ ν) ledger fun result after =>
      ∃ wider, nodes ⊆ wider ∧ settled wider after.supply ∧ ledger.constraints = after.constraints ∧
        result ∈ wider ∧ StandsFor interpretation ledger.constraints
          (fun valuation => interpretation.eval valuation node) result := by
  have size := below.length_eq
  have joined := forall_mem_of_forall₂ below fun _ _ held => held.1
  have stand := below.imp fun _ _ held => held.2
  refine ((habitat.arena _ _ settles).rebuild_returns known size joined).imp ?_
  rintro result after ⟨operands, ⟨rfl, rfl⟩ | ⟨rfl, rfl, -⟩⟩
  · exact ⟨nodes, subset_rfl, settles, rfl, known, .copied (fun _ _ => rfl) (operands.symm ▸ stand)⟩
  · exact ⟨_, Set.subset_insert _ _, habitat.copied _ _ _ _ settles known size.symm joined, rfl,
      Set.mem_insert _ _, .copied (interpretation.apply_copyOver · node mapped _) (operands.symm ▸ stand)⟩

variable [DecidableEq ω]
variable {setting : Setting ν ω (Call ν → RuleM σ (Response ν))}

/-- What a call of a rule has to be for simplification to be sound: it leaves the node in place, or
replaces it by a lighter one that stands for whatever the node stands for. -/
def Preserves (interpretation : Interpretation ν β) (weight : ν → Nat) (settled : Set ν → Supply → Prop)
    (nodes : Set ν) (ledger : Ledger ν σ) (current : ν) (yielded? : Option (Yielded ν))
    (after : Ledger ν σ) : Prop :=
  (∃ session, yielded? = none ∧ after = { ledger with toSession := session } ∧
    ledger.supply.allocated ≤ session.supply.allocated) ∨
  ∃ node constraint session, yielded? = some ⟨node, false⟩ ∧
    after = ledger.yielded session current node constraint ∧ weight node < weight current ∧
    settled (insert node nodes) session.supply ∧
    ∀ meaning, StandsFor interpretation ledger.constraints meaning current →
      StandsFor interpretation after.constraints meaning node

/-- Simplification always returns, and under the returned constraint the result has the value of the
original wherever that has one. -/
theorem simplify_refines (interpretation : Interpretation ν β) {weight : ν → Nat} (settled : Set ν → Supply → Prop)
    (habitat : Habitat settled) (patient : setting.patience = weight)
    (calls : ∀ nodes (ledger : Ledger ν σ) root current, settled nodes ledger.supply → current ∈ nodes →
      ∀ application ∈ applications setting.rules current,
        Returns (callRule setting.environment application.1 root current application.2) ledger
          (Preserves interpretation weight settled nodes ledger current))
    {root : ν} {nodes : Set ν} {session : Session σ} (settles : settled nodes session.supply)
    (present : root ∈ nodes) :
    Returns (simplify setting root) session fun simplified after =>
      ∃ wider, nodes ⊆ wider ∧ settled wider after.supply ∧ simplified.value ∈ wider ∧
        ∀ valuation, simplified.constraint.Holds valuation.parameters →
          Refines (interpretation.eval valuation root) (interpretation.eval valuation simplified.value) := by
  let fits (world : Set ν × Table ν Constraint) (ledger : Ledger ν σ) : Prop :=
    settled world.1 ledger.supply ∧ world.2 = ledger.constraints ∧ root ∈ world.1
  let holds (world : Set ν × Table ν Constraint) (original node : ν) : Prop :=
    node ∈ world.1 ∧
      StandsFor interpretation world.2 (fun valuation => interpretation.eval valuation original) node
  have fit : fits (nodes, .empty) { toSession := session } := ⟨settles, rfl, present⟩
  refine (simplify_returns setting fits holds root ?_ ?_ ?_ fit).imp ?_
  · intro world later original node extended held
    exact ⟨extended.1 held.1, held.2.mono extended.2⟩
  · rintro ⟨nodes, constraints⟩ ledger node mapped ⟨settles, rfl, present⟩ within below
    have known : node ∈ nodes := (habitat.arena _ _ settles).subtree present within
    refine (rebuild_stands habitat settles known below).imp ?_
    intro result after outcome
    obtain ⟨wider, included, settles, same, joined, stands⟩ := outcome
    exact ⟨(wider, _), ⟨included, le_refl _⟩, ⟨settles, same, included present⟩, joined, stands⟩
  · intro original
    refine ⟨fun world later node extended held => ⟨extended.1 held.1, held.2.mono extended.2⟩, ?_⟩
    rintro ⟨nodes, constraints⟩ ledger callRoot current ⟨settles, rfl, present⟩ ⟨known, stands⟩ application member
    refine (calls nodes ledger callRoot current settles known application member).imp ?_
    intro yielded? after outcome
    rcases outcome with ⟨session, rfl, rfl, more⟩ | ⟨node, constraint, session, rfl, rfl, lighter, joins, keeps⟩
    · exact ⟨(nodes, _), le_refl _, ⟨habitat.later _ _ _ settles more, rfl, present⟩, by simp⟩
    · refine ⟨(insert node nodes, _), ⟨Set.subset_insert _ _, Table.le_attach _ _ _ _⟩,
        ⟨joins, rfl, Set.mem_insert_of_mem _ present⟩, ?_⟩
      intro yielded found _
      cases found
      rw [Advances, patient]
      exact ⟨⟨Set.mem_insert _ _, keeps _ stands⟩, lighter⟩
  · intro simplified after outcome
    obtain ⟨⟨wider, _⟩, constraints, extended, ⟨settles, rfl, -⟩, ⟨joined, stands⟩, collected⟩ := outcome
    refine ⟨wider, extended.1, settles, joined, ?_⟩
    intro valuation holds
    refine stands.refines fun inner within condition member => holds condition ?_
    rw [collected]
    exact mem_collectConstraints.mpr ⟨inner, within, member⟩

end Sound
end QueryOptimizer
