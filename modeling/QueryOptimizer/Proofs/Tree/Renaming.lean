import QueryOptimizer.Alias.Renaming
import QueryOptimizer.Proofs.Tree.Arena

/-!
What renaming makes of the nodes of a tree, and of the aliases they refer to.
-/
namespace QueryOptimizer

namespace Renaming
variable {names : Renaming} {one other before after : AliasSet}

/-- `after` has the new names of the aliases in `before`, and no others. -/
def Images (names : Renaming) (before after : AliasSet) : Prop :=
  ∀ symbol, symbol ∈ after ↔ ∃ source ∈ before, symbol = names.apply source

/-- `after` has new names of the aliases in `before` only. -/
def Covers (names : Renaming) (before after : AliasSet) : Prop :=
  ∀ symbol ∈ after, ∃ source ∈ before, symbol = names.apply source

theorem Images.covers (images : names.Images before after) : names.Covers before after :=
  fun symbol => (images symbol).mp

theorem Covers.within {fewer : AliasSet} (covers : names.Covers before after)
    (within : ∀ symbol ∈ fewer, symbol ∈ after) : names.Covers before fewer :=
  fun symbol present => covers symbol (within symbol present)

theorem Covers.union (first : names.Covers one before) (second : names.Covers other after) :
    names.Covers (one ∪ other) (before ∪ after) := by
  intro symbol present
  rcases Std.ExtTreeSet.mem_union_iff.mp present with left | right
  · obtain ⟨source, known, same⟩ := first symbol left
    exact ⟨source, Std.ExtTreeSet.mem_union_iff.mpr (.inl known), same⟩
  · obtain ⟨source, known, same⟩ := second symbol right
    exact ⟨source, Std.ExtTreeSet.mem_union_iff.mpr (.inr known), same⟩

theorem apply_of_not_renames {symbol : Alias} (other : names.renames symbol = false) :
    names.apply symbol = symbol := by
  have none : names.targets[symbol]? = none := Std.ExtTreeMap.getElem?_eq_none_of_contains_eq_false other
  simp only [apply, target?, none, Option.getD_none]

theorem target?_of_renames {symbol : Alias} (source : names.renames symbol = true) :
    names.target? symbol = some (names.apply symbol) := by
  rw [renames, Std.ExtTreeMap.contains_eq_isSome_getElem?] at source
  obtain ⟨target, found⟩ := Option.isSome_iff_exists.mp source
  simp only [apply, target?, found, Option.getD_some]

/-- If no target is a source, then no source is among the new names. -/
theorem Covers.not_renames (covers : names.Covers before after)
    (targets : ∀ source target, names.target? source = some target → names.renames target = false) :
    ∀ symbol ∈ after, names.renames symbol = false := by
  intro symbol present
  obtain ⟨source, -, rfl⟩ := covers symbol present
  by_cases renamed : names.renames source = true
  · exact targets source _ (target?_of_renames renamed)
  · rwa [apply_of_not_renames (Bool.not_eq_true _ ▸ renamed), ← Bool.not_eq_true]

theorem any_eq_any_toList (aliases : AliasSet) (test : Alias → Bool) :
    aliases.any test = aliases.toList.any test := by
  -- The library has no law for `any`; below its quotient it is this loop.
  have loop : aliases.any test = Id.run (do
      for symbol in aliases do
        if test symbol then return true
      return false) := by
    obtain ⟨⟨⟨table⟩⟩⟩ := aliases
    induction table using Quotient.ind
    rfl
  rw [loop, Std.ExtTreeSet.forIn_eq_forIn_toList]
  induction aliases.toList with
  | nil => rfl
  | cons symbol rest ih =>
    rw [List.forIn_cons, List.any_cons]
    by_cases passes : test symbol = true
    · simp [passes]
    · simpa [passes] using ih

theorem renamesAny_iff {aliases : AliasSet} :
    names.renamesAny aliases = true ↔ ∃ symbol ∈ aliases, names.renames symbol = true := by
  rw [renamesAny, any_eq_any_toList, List.any_eq_true]
  simp only [Std.ExtTreeSet.mem_toList]

theorem renamesAny_eq_false_iff {aliases : AliasSet} :
    names.renamesAny aliases = false ↔ ∀ symbol ∈ aliases, names.renames symbol = false := by
  rw [← Bool.not_eq_true, renamesAny_iff]
  simp

theorem Images.empty : names.Images ∅ ∅ := by
  intro symbol
  simp

theorem Images.single (symbol : Alias) :
    names.Images (AliasSet.of symbol) (AliasSet.of (names.apply symbol)) := by
  intro other
  simp only [AliasSet.of, Std.ExtTreeSet.mem_insert, Std.LawfulEqOrd.compare_eq_iff_eq,
    Std.ExtTreeSet.not_mem_empty, or_false, exists_eq_left']
  exact eq_comm

theorem Images.single_of_not_renames {symbol : Alias} (kept : ¬ names.renames symbol = true) :
    names.Images (AliasSet.of symbol) (AliasSet.of symbol) := by
  have images : names.Images (AliasSet.of symbol) (AliasSet.of (names.apply symbol)) := .single symbol
  rwa [apply_of_not_renames (Bool.not_eq_true _ ▸ kept)] at images

theorem Images.union (first : names.Images one before) (second : names.Images other after) :
    names.Images (one ∪ other) (before ∪ after) := by
  intro symbol
  simp only [Std.ExtTreeSet.mem_union_iff, first symbol, second symbol, or_and_right, exists_or]

end Renaming

/-- The supply hands out none of the identities in the tree again. -/
def Tree.Allocated {ν ω : Type} [Tree ν ω] (supply : Supply) (root : ν) : Prop :=
  ∀ node ∈ Tree.postOrder root, (identity node).index < supply.allocated

theorem Tree.Allocated.child {ν ω : Type} [Tree ν ω] {supply : Supply} {root child : ν}
    (allocated : Tree.Allocated supply root) (member : child ∈ Tree.children root) :
    Tree.Allocated supply child :=
  fun node within => allocated node (Tree.mem_postOrder_of_child member within)

variable {ν ω : Type} [Tree ν ω]

/-- What is left of a node after renaming is the node itself or a new one. It refers to the new names of
the aliases that the node refers to, if the identities in the node were handed out before. -/
structure RenamedNode (correlatedTo : ν → AliasSet) (allocated : Supply → ν → Prop) (names : Renaming)
    (start : Supply) (node renamed : ν) : Prop where
  same_or_new : renamed = node ∨ start.allocated ≤ (identity renamed).index
  images : allocated start node → names.Images (correlatedTo node) (correlatedTo renamed)

namespace RenamedNode
variable {correlatedTo : ν → AliasSet} {allocated : Supply → ν → Prop} {names : Renaming}
variable {start : Supply}

/-- Only a node that was not renamed is taken for the same node. -/
theorem eq_of_sameNode {node renamed : ν} (known : RenamedNode correlatedTo allocated names start node renamed)
    (bound : (identity node).index < start.allocated) (same : sameNode node renamed = true) :
    renamed = node := by
  rcases known.same_or_new with equal | new
  · exact equal
  · rw [← sameNode_iff.mp same] at new
    exact absurd new (Nat.not_le.mpr bound)

theorem eq_of_sameNodes {nodes renamed : List ν}
    (known : List.Forall₂ (RenamedNode correlatedTo allocated names start) nodes renamed)
    (bounds : ∀ node ∈ nodes, (identity node).index < start.allocated)
    (same : ∀ pair ∈ nodes.zip renamed, sameNode pair.1 pair.2 = true) : renamed = nodes := by
  induction known with
  | nil => rfl
  | cons first _ ih =>
    have head := first.eq_of_sameNode (bounds _ (by simp)) (same (_, _) (by simp))
    have tail := ih (fun node member => bounds node (by simp [member]))
      fun pair member => same pair (by simp [member])
    rw [head, tail]

theorem images_each {nodes renamed : List ν}
    (known : List.Forall₂ (RenamedNode correlatedTo allocated names start) nodes renamed)
    (each : ∀ node ∈ nodes, allocated start node) :
    List.Forall₂ (fun node renamed => names.Images (correlatedTo node) (correlatedTo renamed))
      nodes renamed := by
  induction known with
  | nil => exact .nil
  | cons first _ ih =>
    exact .cons (first.images (each _ (by simp))) (ih fun node member => each node (by simp [member]))

/-- A node whose content refers to aliases through its children only is renamed by rebuilding it over
the renamed children. -/
theorem rebuild [LawfulTree ν] {node : ν} {mapped : List ν}
    (below : List.Forall₂ (RenamedNode correlatedTo allocated names start) (Tree.children node) mapped)
    (known : allocated start node → ∀ child ∈ Tree.children node,
      allocated start child ∧ (identity child).index < start.allocated)
    (own : Tree.copyOver node (Tree.children node) (identity node) = node)
    (copies : ∀ renamed id,
      List.Forall₂ (fun child renamed => names.Images (correlatedTo child) (correlatedTo renamed))
        (Tree.children node) renamed →
      names.Images (correlatedTo node) (correlatedTo (Tree.copyOver node renamed id))) :
    Draws (Tree.rebuild node mapped : EStateM Interruption Supply ν) start
      (RenamedNode correlatedTo allocated names start node) := by
  intro supply later
  refine (Tree.rebuild_returns below.length_eq).imp ?_
  intro renamed after outcome
  rcases outcome with ⟨rfl, rfl, same⟩ | ⟨rfl, rfl, -⟩
  · refine ⟨Nat.le_refl _, .inl rfl, ?_⟩
    intro handed
    have unchanged := eq_of_sameNodes below (fun child member => (known handed child member).2) same
    have images := copies mapped (identity renamed)
      (images_each below fun child member => (known handed child member).1)
    rwa [unchanged, own] at images
  · refine ⟨Nat.le_succ _, .inr ?_, ?_⟩
    · rw [LawfulTree.identity_copyOver]
      exact later
    · intro handed
      exact copies mapped _ (images_each below fun child member => (known handed child member).1)

end RenamedNode
end QueryOptimizer
