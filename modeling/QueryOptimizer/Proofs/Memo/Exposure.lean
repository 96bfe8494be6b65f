import QueryOptimizer.Proofs.Memo.Outcome
import QueryOptimizer.Proofs.Memo.Scoping

/-!
Which of the references that a renaming adds can be reached from what it returns. A reference that is correlated
to no source is returned as it is, over the inputs it had, whatever has become of those. So what takes the place
of a reference is in use exactly if the reference is exposed: not hidden behind one that stays.
-/
namespace QueryOptimizer
variable {ε : Type}

/-- A memo has no fewer references than one that it has come from, and as many only if it is the same. -/
theorem Memo.Inserted.size_le {memo later : Memo ε} (inserted : memo.Inserted later) : memo.size ≤ later.size := by
  induction inserted with
  | refl => exact Nat.le_refl _
  | insert _ _ _ _ ih =>
    rw [size_insert]
    exact Nat.le_succ_of_le ih

theorem Memo.Inserted.eq_of_size_le {memo later : Memo ε} (inserted : memo.Inserted later)
    (size : later.size ≤ memo.size) : later = memo := by
  cases inserted with
  | refl => rfl
  | insert _ _ _ earlier =>
    rw [size_insert] at size
    exact absurd (earlier.size_le.trans_lt size) (Nat.lt_irrefl _)

variable [RelationalExpression ε]

namespace Memo

/-- The reference called `id` is known to be correlated to a source. -/
def CorrelatedToSource (memo : Memo ε) (names : Renaming) (id : ReferenceId) : Prop :=
  ∃ correlated, memo.correlatedTo id = .ok correlated ∧ names.renamesAny correlated = true

/-- The reference called `id` is reached from one of `ids` through references, itself and the first one
included, that are all correlated to a source. -/
inductive Exposed (memo : Memo ε) (names : Renaming) (ids : List ReferenceId) : ReferenceId → Prop where
  | given {id : ReferenceId} : id ∈ ids → memo.CorrelatedToSource names id → Exposed memo names ids id
  | input {id input : ReferenceId} : Exposed memo names ids id → memo.RangesOver id input →
      memo.CorrelatedToSource names input → Exposed memo names ids input

variable {memo : Memo ε} {names : Renaming} {ids : List ReferenceId} {id : ReferenceId}

theorem Exposed.correlated (exposed : memo.Exposed names ids id) : memo.CorrelatedToSource names id := by
  cases exposed with
  | given _ correlated => exact correlated
  | input _ _ correlated => exact correlated

theorem Exposed.reached (exposed : memo.Exposed names ids id) : memo.Reaches ids id := by
  induction exposed with
  | given member _ => exact .of_mem member
  | input _ ranges _ reached => exact reached.tail ranges

end Memo

namespace Visited
variable {names : Renaming} {simplifies : Bool} {start state : MemoState ε} {order ids : List ReferenceId}
variable {renamed : Renamed} {id new : ReferenceId}

section Added
variable (visited : Visited names simplifies start order renamed state)
include visited

/-- What takes the place of a reference was not in the memo at the start. -/
theorem becomes_new (member : id ∈ order) (changed : renamed.becomes id ≠ id) :
    start.memo.get? (renamed.becomes id) = none := by
  cases visited.each id member with
  | kept _ _ stays => exact absurd stays changed
  | renamed _ _ _ _ new => exact new

/-- Nothing is added to the memo but what takes the place of a reference. -/
theorem added_iff (distinct : order.Nodup) (absent : start.memo.get? new = none) :
    (∃ reference, state.memo.get? new = some reference) ↔
      ∃ id ∈ order, renamed.becomes id ≠ id ∧ new = renamed.becomes id := by
  constructor
  · rintro ⟨reference, found⟩
    by_contra unlisted
    -- The new reference would be one more than there are, beside the old ones and what takes the place of some.
    let images := (order.filter fun id => renamed.becomes id ≠ id).map renamed.becomes
    have mem_images {other : ReferenceId} (member : other ∈ images) :
        ∃ id ∈ order, renamed.becomes id ≠ id ∧ other = renamed.becomes id := by
      obtain ⟨id, kept, rfl⟩ := List.mem_map.mp member
      obtain ⟨listed, changed⟩ := List.mem_filter.mp kept
      exact ⟨id, listed, of_decide_eq_true changed, rfl⟩
    have mem_old {other : ReferenceId} (member : other ∈ start.memo.entries.keys) :
        ∃ reference, start.memo.get? other = some reference :=
      Memo.mem_entries_iff.mp (Std.ExtTreeMap.mem_keys.mp member)
    have imagesDistinct : images.Nodup := by
      refine List.Nodup.map_on ?_ (distinct.filter _)
      intro one first other second same
      exact visited.distinct one (List.mem_of_mem_filter first) other (List.mem_of_mem_filter second) same
    have apart : start.memo.entries.keys.Disjoint images := by
      intro other old image
      obtain ⟨id, listed, changed, rfl⟩ := mem_images image
      obtain ⟨_, known⟩ := mem_old old
      rw [visited.becomes_new listed changed] at known
      cases known
    have fresh : new ∉ start.memo.entries.keys ++ images := by
      intro member
      rcases List.mem_append.mp member with old | image
      · obtain ⟨_, known⟩ := mem_old old
        rw [absent] at known
        cases known
      · exact unlisted (mem_images image)
    have all : (new :: (start.memo.entries.keys ++ images)).Nodup :=
      List.nodup_cons.mpr ⟨fresh, Std.ExtTreeMap.nodup_keys.append imagesDistinct apart⟩
    have bound : (new :: (start.memo.entries.keys ++ images)).length ≤ state.memo.size := by
      refine Memo.length_le_size all ?_
      intro other member
      rcases List.mem_cons.mp member with rfl | member
      · exact ⟨reference, found⟩
      rcases List.mem_append.mp member with old | image
      · obtain ⟨known, there⟩ := mem_old old
        exact ⟨known, visited.memo other known there⟩
      · obtain ⟨id, listed, -, rfl⟩ := mem_images image
        exact visited.becomes_known listed
    have counted : images.length = order.countP fun id => renamed.becomes id ≠ id := by
      rw [List.length_map, List.countP_eq_length_filter]
    rw [visited.size, ← counted, List.length_cons, List.length_append, Std.ExtTreeMap.length_keys] at bound
    exact Nat.lt_irrefl _ bound
  · rintro ⟨id, listed, -, rfl⟩
    exact visited.becomes_known listed

end Added

section Reach
variable [LawfulRelationalExpression ε] (visited : Visited names simplifies start order renamed state)
variable (elements : ∀ id, id ∈ order ↔ start.memo.Reaches ids id) (grounded : start.memo.Grounded ids)
include visited elements grounded

omit [LawfulRelationalExpression ε] in
/-- The references that are replaced are those that are correlated to a source. -/
theorem becomes_ne_iff (reached : start.memo.Reaches ids id) :
    renamed.becomes id ≠ id ↔ start.memo.CorrelatedToSource names id := by
  rw [Memo.CorrelatedToSource, Memo.correlated_to_source_iff (grounded.of_reaches reached), Ne,
    (visited.each id ((elements id).mpr reached)).eq_iff]

/-- Whatever can be reached from what is returned was there before, and could be reached then, or takes the
place of an exposed reference. -/
theorem reached_cases {other : ReferenceId} (reaches : state.memo.Reaches (ids.map renamed.becomes) other) :
    start.memo.Reaches ids other ∨ ∃ id, start.memo.Exposed names ids id ∧ other = renamed.becomes id := by
  have either {id : ReferenceId} (reached : start.memo.Reaches ids id)
      (exposes : start.memo.CorrelatedToSource names id → start.memo.Exposed names ids id) :
      start.memo.Reaches ids (renamed.becomes id) ∨
        ∃ other, start.memo.Exposed names ids other ∧ renamed.becomes id = renamed.becomes other := by
    by_cases stays : renamed.becomes id = id
    · exact .inl (stays.symm ▸ reached)
    · exact .inr ⟨id, exposes ((visited.becomes_ne_iff elements grounded reached).mp stays), rfl⟩
  obtain ⟨first, given, path⟩ := reaches
  obtain ⟨id, member, rfl⟩ := List.mem_map.mp given
  induction path with
  | refl => exact either (.of_mem member) (.given member)
  | tail _ ranges ih =>
    rcases ih with reached | ⟨source, exposed, rfl⟩
    · obtain ⟨reference, found⟩ := grounded.complete _ reached
      have inputs := (Memo.RangesOver.mem_inputs (visited.memo _ reference found)).mp ranges
      exact .inl (reached.tail ((Memo.RangesOver.mem_inputs found).mpr inputs))
    · have changed := (visited.becomes_ne_iff elements grounded exposed.reached).mpr exposed.correlated
      obtain ⟨input, earlier, rfl⟩ := (visited.ranges_becomes_iff elements exposed.reached changed).mp ranges
      exact either (exposed.reached.tail earlier) (.input exposed earlier)

/-- What takes the place of a reference is in use exactly if the reference is exposed. -/
theorem reaches_becomes_iff (reached : start.memo.Reaches ids id) (changed : renamed.becomes id ≠ id) :
    state.memo.Reaches (ids.map renamed.becomes) (renamed.becomes id) ↔ start.memo.Exposed names ids id := by
  constructor
  · intro reaches
    rcases visited.reached_cases elements grounded reaches with old | ⟨other, exposed, same⟩
    · obtain ⟨reference, found⟩ := grounded.complete _ old
      rw [visited.becomes_new ((elements id).mpr reached) changed] at found
      cases found
    · rwa [visited.distinct id ((elements id).mpr reached) other ((elements other).mpr exposed.reached) same]
  · intro exposed
    clear reached changed
    induction exposed with
    | given member _ => exact .of_mem (List.mem_map_of_mem member)
    | input exposed ranges _ ih =>
      have changed := (visited.becomes_ne_iff elements grounded exposed.reached).mpr exposed.correlated
      exact ih.tail ((visited.ranges_becomes_iff elements exposed.reached changed).mpr ⟨_, ranges, rfl⟩)

end Reach
end Visited
end QueryOptimizer
