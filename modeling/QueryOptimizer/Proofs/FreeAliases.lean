import QueryOptimizer.Proofs.Relation

/-!
The aliases that a reference is correlated to, told from the paths through the graph: an alias is among
them exactly if some path leads to a member that mentions it, and no member on the way binds it.
-/
namespace QueryOptimizer
variable {ε : Type} [RelationalExpression ε]

namespace Memo

/-- A path through the graph: `length + 1` references, each with one of its members, where every member but
the last has a quantifier over the next reference. -/
structure Path (memo : Memo ε) (length : Nat) (references : Nat → ReferenceId) (members : Nat → Member ε) :
    Prop where
  listed : ∀ i ≤ length, ∃ reference, memo.get? (references i) = some reference ∧ members i ∈ reference.members
  linked : ∀ i < length, ∃ quantifier ∈ RelationalExpression.quantifiers (members i).expression,
    quantifier.rangesOver = references (i + 1)

/-- The path leads to a mention of `symbol`, and no member on it binds `symbol`. -/
structure Path.Exposes (length : Nat) (members : Nat → Member ε) (symbol : Alias) : Prop where
  mentioned : symbol ∈ RelationalExpression.ownCorrelations (members length).expression
  unbound : ∀ i ≤ length, ¬ Binds (members i).expression symbol

variable {memo : Memo ε} {id : ReferenceId} {reference : Reference ε} {member : Member ε} {symbol : Alias}
variable {length : Nat} {references : Nat → ReferenceId} {members : Nat → Member ε}

/-- The sequence with `first` in front. -/
def prepended {α : Type} (first : α) (rest : Nat → α) : Nat → α
  | 0 => first
  | i + 1 => rest i

theorem Path.single (found : memo.get? id = some reference) (present : member ∈ reference.members) :
    memo.Path 0 (fun _ => id) fun _ => member where
  listed _ _ := ⟨reference, found, present⟩
  linked _ before := absurd before (Nat.not_lt_zero _)

theorem Path.cons (path : memo.Path length references members) (found : memo.get? id = some reference)
    (present : member ∈ reference.members) {quantifier : Quantifier}
    (input : quantifier ∈ RelationalExpression.quantifiers member.expression)
    (ranges : quantifier.rangesOver = references 0) :
    memo.Path (length + 1) (prepended id references) (prepended member members) := by
  constructor
  · intro i within
    cases i with
    | zero => exact ⟨reference, found, present⟩
    | succ i => exact path.listed i (Nat.le_of_succ_le_succ within)
  · intro i before
    cases i with
    | zero => exact ⟨quantifier, input, ranges⟩
    | succ i => exact path.linked i (Nat.lt_of_succ_lt_succ before)

theorem Path.tail (path : memo.Path (length + 1) references members) :
    memo.Path length (fun i => references (i + 1)) fun i => members (i + 1) where
  listed i within := path.listed (i + 1) (Nat.succ_le_succ within)
  linked i before := path.linked (i + 1) (Nat.succ_lt_succ before)

/-- A free alias is mentioned at the end of a path, by the derivation that it is free. -/
theorem Free.exists_path (free : memo.Free id symbol) :
    ∃ length references members, memo.Path length references members ∧ references 0 = id ∧
      Path.Exposes length members symbol := by
  induction free with
  | own found present refers unbound =>
    exact ⟨0, _, _, .single found present, rfl, refers, fun _ _ => unbound⟩
  | inherited found present input below unbound ih =>
    obtain ⟨length, references, members, path, starts, mentioned, others⟩ := ih
    refine ⟨length + 1, _, _, path.cons found present input starts.symm, rfl, mentioned, ?_⟩
    intro i within
    cases i with
    | zero => exact unbound
    | succ i => exact others i (Nat.le_of_succ_le_succ within)

/-- What the end of a path mentions is free in all references before, up to the first. -/
theorem Path.free (path : memo.Path length references members) (exposes : Path.Exposes length members symbol) :
    memo.Free (references 0) symbol := by
  induction length generalizing references members with
  | zero =>
    obtain ⟨reference, found, present⟩ := path.listed 0 (Nat.le_refl _)
    exact .own found present exposes.mentioned (exposes.unbound 0 (Nat.le_refl _))
  | succ length ih =>
    obtain ⟨reference, found, present⟩ := path.listed 0 (Nat.zero_le _)
    obtain ⟨quantifier, input, ranges⟩ := path.linked 0 (Nat.zero_lt_succ _)
    have below : memo.Free (references 1) symbol :=
      ih path.tail ⟨exposes.mentioned, fun i within => exposes.unbound (i + 1) (Nat.succ_le_succ within)⟩
    rw [← ranges] at below
    exact .inherited found present input below (exposes.unbound 0 (Nat.zero_le _))

/-- A reference is correlated to exactly those aliases that are mentioned at the end of a path from it and
bound nowhere on that path. -/
theorem correlatedTo_iff_exposed (memo : Memo ε) (id : ReferenceId) (grounded : memo.Grounded [id]) :
    ∃ correlated, memo.correlatedTo id = .ok correlated ∧ ∀ symbol, symbol ∈ correlated ↔
      ∃ length references members, memo.Path length references members ∧ references 0 = id ∧
        Path.Exposes length members symbol := by
  obtain ⟨correlated, found, described⟩ := correlatedTo_ok grounded
  refine ⟨correlated, found, fun symbol => (described symbol).trans ⟨Free.exists_path, ?_⟩⟩
  intro exposed
  obtain ⟨length, references, members, path, rfl, exposes⟩ := exposed
  exact path.free exposes

/-- The selection is correlated to the outer alias, and not to the one of its own input. -/
theorem correlatedTo_outerComparison : outerComparison.memo.Grounded [⟨1⟩] ∧
    ∃ correlated, outerComparison.memo.correlatedTo ⟨1⟩ = .ok correlated ∧ ⟨"p"⟩ ∈ correlated ∧
      ⟨"q"⟩ ∉ correlated := by
  obtain ⟨correlated, found, exposed⟩ :=
    correlatedTo_iff_exposed outerComparison.memo ⟨1⟩ outerComparison_grounded
  refine ⟨outerComparison_grounded, correlated, found, ?_, ?_⟩
  · refine (exposed _).mpr ⟨0, _, _, .single outerComparison_comparison (List.mem_singleton_self _), rfl,
      mem_ownCorrelations_comparison.mpr (.inr rfl), ?_⟩
    intro _ _
    rw [binds_comparison]
    decide
  · intro inner
    obtain ⟨length, references, members, path, starts, exposes⟩ := (exposed _).mp inner
    obtain ⟨reference, known, present⟩ := path.listed 0 (Nat.zero_le _)
    rw [starts, outerComparison_comparison] at known
    obtain rfl := Option.some.inj known
    refine exposes.unbound 0 (Nat.zero_le _) ?_
    rw [List.mem_singleton.mp present]
    exact binds_comparison.mpr rfl

end Memo
end QueryOptimizer
