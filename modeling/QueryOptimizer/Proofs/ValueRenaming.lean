import QueryOptimizer.Proofs.Predicate.Sharing

/-!
Renaming the aliases of values, that is, of scalars and predicates: all of them are renamed at once, nothing is
copied that could be shared, and one renaming after another comes to a single one.
-/
namespace QueryOptimizer

namespace Renaming

/-- The renaming of each source of either to what the second makes of what the first makes of it. -/
def andThen (first second : Renaming) : Renaming :=
  ofList ((first.sources ++ second.sources).map fun source => (source, second.apply (first.apply source)))

variable {first second : Renaming} {symbol : Alias}

theorem mem_sources {names : Renaming} : symbol ∈ names.sources ↔ names.renames symbol = true := by
  rw [sources, renames, Std.ExtTreeMap.mem_keys, Std.ExtTreeMap.mem_iff_contains]

theorem target?_ofList_map (target : Alias → Alias) (sources : List Alias) :
    (ofList (sources.map fun source => (source, target source))).target? symbol =
      if symbol ∈ sources then some (target symbol) else none := by
  induction sources using List.reverseRecOn with
  | nil => simp [ofList, empty, target?]
  | append_singleton sources source ih =>
    have inserted : ofList ((sources ++ [source]).map fun source => (source, target source)) =
        (ofList (sources.map fun source => (source, target source))).insert source (target source) := by
      simp [ofList]
    rw [inserted, target?_insert, ih]
    by_cases same : source = symbol
    · simp [same]
    · simp [same, Ne.symm same]

theorem target?_andThen (first second : Renaming) (symbol : Alias) :
    (first.andThen second).target? symbol =
      if first.renames symbol = true ∨ second.renames symbol = true then some (second.apply (first.apply symbol))
      else none := by
  rw [andThen, target?_ofList_map fun source => second.apply (first.apply source)]
  simp only [List.mem_append, mem_sources]

theorem apply_andThen (first second : Renaming) (symbol : Alias) :
    (first.andThen second).apply symbol = second.apply (first.apply symbol) := by
  rw [apply, target?_andThen]
  split
  · rfl
  · rename_i neither
    obtain ⟨notFirst, notSecond⟩ := not_or.mp neither
    rw [apply_of_not_renames (Bool.eq_false_iff.mpr notFirst), apply_of_not_renames (Bool.eq_false_iff.mpr notSecond)]
    rfl

end Renaming

variable {names second : Renaming} {low high lower higher least most : Nat}

/-- A scalar that is renamed twice agrees with what is renamed once. -/
theorem Scalar.Follows.agrees_twice {scalar renamed twice once : Scalar}
    (follows : Follows names low high scalar renamed) (again : Follows second lower higher renamed twice)
    (both : Follows (names.andThen second) least most scalar once) : twice.agrees once = true := by
  have composed := agrees_mapAliases_comp follows.agrees again.agrees
  have direct := both.agrees
  rw [funext (Renaming.apply_andThen names second)] at direct
  rw [agrees_iff_bare_eq] at *
  exact composed.trans direct.symm

/-- A predicate that is renamed twice agrees with what is renamed once. -/
theorem Predicate.Follows.agrees_twice {predicate renamed twice once : Predicate}
    (follows : Follows names low high predicate renamed) (again : Follows second lower higher renamed twice)
    (both : Follows (names.andThen second) least most predicate once) : twice.agrees once = true := by
  have composed := agrees_mapAliases_comp follows.agrees again.agrees
  have direct := both.agrees
  rw [funext (Renaming.apply_andThen names second)] at direct
  rw [agrees_iff_bare_eq] at *
  exact composed.trans direct.symm

/-- Renaming a scalar or a predicate always returns it with all of its aliases replaced once and nothing else
changed, correlated to the images of what it was correlated to. The result is the very node if and only if no
source is among those, and the same holds along each path into it and into the scalars of a predicate. To
rename what is returned once more comes to the one renaming of the sources of both. -/
theorem values_are_renamed_at_once (names second : Renaming) (supply : Supply) (scalar : Scalar)
    (predicate : Predicate) (knownScalar : Tree.Allocated supply scalar)
    (knownPredicate : predicate.Allocated supply) :
    (∃ renamed after, (scalar.rename names : EStateM Interruption Supply Scalar) supply = .ok renamed after ∧
      renamed.agrees (scalar.mapAliases names.apply) = true ∧
      names.Images scalar.correlatedTo renamed.correlatedTo ∧
      (sameNode scalar renamed = true ↔ ∀ source ∈ scalar.correlatedTo, names.renames source = false) ∧
      scalar.Shares names renamed ∧
      ∃ twice last once single,
        (renamed.rename second : EStateM Interruption Supply Scalar) after = .ok twice last ∧
        (scalar.rename (names.andThen second) : EStateM Interruption Supply Scalar) supply = .ok once single ∧
        twice.agrees once = true) ∧
    ∃ renamed after, (predicate.rename names : EStateM Interruption Supply Predicate) supply = .ok renamed after ∧
      renamed.agrees (predicate.mapAliases names.apply) = true ∧
      names.Images predicate.correlatedTo renamed.correlatedTo ∧
      (sameNode predicate renamed = true ↔ ∀ source ∈ predicate.correlatedTo, names.renames source = false) ∧
      predicate.Shares names renamed ∧
      ∃ twice last once single,
        (renamed.rename second : EStateM Interruption Supply Predicate) after = .ok twice last ∧
        (predicate.rename (names.andThen second) : EStateM Interruption Supply Predicate) supply = .ok once single ∧
        twice.agrees once = true := by
  constructor
  · obtain ⟨renamed, after, found, more, follows⟩ :=
      (Scalar.rename_follows names knownScalar supply (Nat.le_refl _)).returned
    obtain ⟨twice, last, foundTwice, -, again⟩ :=
      (Scalar.rename_follows second (follows.allocated knownScalar more) after (Nat.le_refl _)).returned
    obtain ⟨once, single, foundOnce, -, both⟩ :=
      (Scalar.rename_follows (names.andThen second) knownScalar supply (Nat.le_refl _)).returned
    have images := ((scalar.rename_draws names supply supply (Nat.le_refl _)).at_ok found).2.images knownScalar
    have old := knownScalar scalar (Tree.root_mem_postOrder scalar)
    exact ⟨renamed, after, found, follows.agrees, images, follows.renewed.sameNode_iff old,
      follows.shares knownScalar, twice, last, once, single, foundTwice, foundOnce, follows.agrees_twice again both⟩
  · obtain ⟨renamed, after, found, more, follows⟩ :=
      (Predicate.rename_follows names knownPredicate supply (Nat.le_refl _)).returned
    obtain ⟨twice, last, foundTwice, -, again⟩ :=
      (Predicate.rename_follows second (follows.allocated knownPredicate more) after (Nat.le_refl _)).returned
    obtain ⟨once, single, foundOnce, -, both⟩ :=
      (Predicate.rename_follows (names.andThen second) knownPredicate supply (Nat.le_refl _)).returned
    have images :=
      ((predicate.rename_draws names supply supply (Nat.le_refl _)).at_ok found).2.images knownPredicate
    have old := (knownPredicate predicate (Tree.root_mem_postOrder predicate)).1
    exact ⟨renamed, after, found, follows.agrees, images, follows.renewed.sameNode_iff old,
      follows.shares knownPredicate, twice, last, once, single, foundTwice, foundOnce,
      follows.agrees_twice again both⟩

/-- Two aliases are swapped in a sum, and in a conjunction about it that has a comparison with neither. -/
theorem values_are_renamed_at_once_swapped :
    let untouched : Scalar := .column ⟨2⟩ ⟨"s"⟩ "b"
    let sum : Scalar := .call ⟨3⟩ .add [.column ⟨0⟩ ⟨"q"⟩ "a", .parameter ⟨1⟩ ⟨"p"⟩, untouched]
    let compared : Predicate := .compare ⟨5⟩ .eq untouched (.literal ⟨4⟩ (.int 1))
    let both : Predicate := .and ⟨7⟩ [.isNull ⟨6⟩ sum, compared]
    let swap := (Renaming.empty.insert ⟨"p"⟩ ⟨"q"⟩).insert ⟨"q"⟩ ⟨"p"⟩
    Tree.Allocated ⟨8⟩ sum ∧ both.Allocated ⟨8⟩ ∧
      (∃ renamed after, (sum.rename swap : EStateM Interruption Supply Scalar) ⟨8⟩ = .ok renamed after ∧
        renamed.agrees (.call ⟨3⟩ .add [.column ⟨0⟩ ⟨"p"⟩ "a", .parameter ⟨1⟩ ⟨"q"⟩, untouched]) = true ∧
        sameNode sum renamed = false ∧ Tree.at? [2] renamed = some untouched) ∧
      ∃ renamed after, (both.rename swap : EStateM Interruption Supply Predicate) ⟨8⟩ = .ok renamed after ∧
        Tree.at? [1] renamed = some compared ∧
        ∃ twice last once single,
          (renamed.rename swap : EStateM Interruption Supply Predicate) after = .ok twice last ∧
          (both.rename (swap.andThen swap) : EStateM Interruption Supply Predicate) ⟨8⟩ = .ok once single ∧
          twice.agrees once = true := by
  intro untouched sum compared both swap
  have knownUntouched : Tree.Allocated ⟨8⟩ untouched := by
    intro node within
    obtain rfl := (Tree.mem_postOrder_of_leaf rfl).mp within
    decide
  have knownSum : Tree.Allocated ⟨8⟩ sum := by
    simp [Tree.Allocated, Tree.postOrder_eq, Tree.children, Scalar.children, sum, untouched, identity, Scalar.identity]
  have knownBoth : both.Allocated ⟨8⟩ := by
    intro node within
    rcases Tree.mem_postOrder.mp within with rfl | ⟨child, member, further⟩
    · exact ⟨by decide, List.forall_mem_nil _⟩
    · rcases List.mem_cons.mp member with rfl | other
      · obtain rfl := (Tree.mem_postOrder_of_leaf rfl).mp further
        exact ⟨by decide, List.forall_mem_singleton.mpr knownSum⟩
      · obtain rfl := List.mem_singleton.mp other
        obtain rfl := (Tree.mem_postOrder_of_leaf rfl).mp further
        refine ⟨by decide, List.forall_mem_cons.mpr ⟨knownUntouched, List.forall_mem_singleton.mpr ?_⟩⟩
        intro node within
        obtain rfl := (Tree.mem_postOrder_of_leaf rfl).mp within
        decide
  have swapped : swap.apply ⟨"q"⟩ = ⟨"p"⟩ ∧ swap.apply ⟨"p"⟩ = ⟨"q"⟩ ∧ swap.apply ⟨"s"⟩ = ⟨"s"⟩ := by
    have none : Renaming.empty.target? ⟨"s"⟩ = none := Std.ExtTreeMap.getElem?_empty
    simp [swap, Renaming.apply, Renaming.target?_insert, none]
  have renames : swap.renames ⟨"q"⟩ = true ∧ swap.renames ⟨"s"⟩ = false := by
    simp [swap, Renaming.renames, Renaming.insert, Renaming.empty]
  obtain ⟨⟨renamed, after, found, agrees, -, same, shares, -⟩, renamedBoth, afterBoth, foundBoth, -, -, -, sharesBoth,
    twice⟩ := values_are_renamed_at_once swap swap ⟨8⟩ sum both knownSum knownBoth
  refine ⟨knownSum, knownBoth, ⟨renamed, after, found, ?_, ?_, ?_⟩, renamedBoth, afterBoth, foundBoth, ?_, twice⟩
  · simpa only [sum, untouched, Scalar.mapAliases, Scalar.mapAliasesEach, swapped] using agrees
  · refine Bool.eq_false_iff.mpr fun kept => ?_
    have source := same.mp kept ⟨"q"⟩ (by simp [sum, Scalar.correlatedTo, Scalar.correlatedToEach, AliasSet.of])
    rw [renames.1] at source
    cases source
  · obtain ⟨image, reached, kept, -⟩ := shares [2] untouched rfl
    rw [reached, kept (Renaming.spares_of.mpr renames.2)]
  · obtain ⟨image, reached, kept, -⟩ := sharesBoth [1] compared rfl
    rw [reached, kept (Renaming.spares_union.mpr ⟨Renaming.spares_of.mpr renames.2, Renaming.spares_empty⟩)]

end QueryOptimizer
