import Mathlib
import QueryOptimizer.Memo.Basic

/-!
The members of references, each listed once, and the references of a memo.
-/
namespace QueryOptimizer
variable {ε : Type}

theorem mem_of_mem_distinctMembers {members : List (Member ε)} {member : Member ε}
    (present : member ∈ distinctMembers members) : member ∈ members := by
  induction members with
  | nil => cases present
  | cons first rest ih =>
    rcases List.mem_cons.mp present with rfl | later
    · exact List.mem_cons_self ..
    · exact List.mem_cons_of_mem _ (ih (List.mem_of_mem_filter later))

theorem distinctMembers_pairwise (members : List (Member ε)) :
    (distinctMembers members).Pairwise fun one other => one.id ≠ other.id := by
  induction members with
  | nil => exact .nil
  | cons first rest ih =>
    refine .cons ?_ (ih.filter _)
    intro other member same
    have different := List.of_mem_filter member
    rw [sameNode_iff.mpr same] at different
    cases different

/-- Where members with one identity are one member, none is lost by listing each once. -/
theorem mem_distinctMembers {members : List (Member ε)}
    (distinct : ∀ one ∈ members, ∀ other ∈ members, one.id = other.id → one = other) {member : Member ε} :
    member ∈ distinctMembers members ↔ member ∈ members := by
  refine ⟨mem_of_mem_distinctMembers, ?_⟩
  intro present
  induction members with
  | nil => exact present
  | cons first rest ih =>
    rcases List.mem_cons.mp present with rfl | later
    · exact List.mem_cons_self ..
    · by_cases same : sameNode first member = true
      · rw [distinct first (by simp) member present (sameNode_iff.mp same)]
        exact List.mem_cons_self ..
      · have listed := ih (fun one first other second =>
          distinct one (by simp [first]) other (by simp [second])) later
        exact List.mem_cons_of_mem _ (List.mem_filter.mpr ⟨listed, by simpa using same⟩)

/-- Whichever members are not listed, their identities are. -/
theorem exists_mem_distinctMembers {members : List (Member ε)} {member : Member ε} (present : member ∈ members) :
    ∃ listed ∈ distinctMembers members, listed.id = member.id := by
  induction members with
  | nil => cases present
  | cons first rest ih =>
    by_cases same : first.id = member.id
    · exact ⟨first, List.mem_cons_self .., same⟩
    · have later : member ∈ rest := (List.mem_cons.mp present).resolve_left (by rintro rfl; exact same rfl)
      obtain ⟨listed, known, equal⟩ := ih later
      have different : sameNode first listed = false := by
        rw [Bool.eq_false_iff, Ne, sameNode_iff]
        exact fun equalFirst => same (equalFirst.trans equal)
      exact ⟨listed, List.mem_cons_of_mem _ (List.mem_filter.mpr ⟨known, by rw [different]; rfl⟩), equal⟩

/-- If different members become different members, exactly those that pass a test have their images among
the images of those that pass it. -/
theorem any_sameNode_image {members : List (Member ε)} {image : Member ε → Member ε}
    (distinct : ∀ one ∈ members, ∀ other ∈ members, (image one).id = (image other).id → one = other)
    (test : Member ε → Bool) {member : Member ε} (present : member ∈ members) :
    ((members.filter test).map image).any (sameNode (image member)) = test member := by
  rw [Bool.eq_iff_iff, List.any_eq_true]
  constructor
  · intro found
    obtain ⟨new, listed, same⟩ := found
    obtain ⟨other, kept, rfl⟩ := List.mem_map.mp listed
    obtain ⟨known, passes⟩ := List.mem_filter.mp kept
    rwa [distinct member present other known (sameNode_iff.mp same)]
  · intro passes
    exact ⟨image member, List.mem_map_of_mem (List.mem_filter.mpr ⟨present, passes⟩), sameNode_iff.mpr rfl⟩

namespace Reference

/-- Every member is exploratory or final. -/
theorem exploratory_or_final (reference : Reference ε) {member : Member ε} (present : member ∈ reference.members) :
    reference.isExploratory member = true ∨ reference.isFinal member = true := by
  have among (members : List (Member ε)) (listed : member ∈ members) :
      members.any (sameNode member) = true :=
    List.any_eq_true.mpr ⟨member, listed, sameNode_iff.mpr rfl⟩
  exact (List.mem_append.mp (mem_of_mem_distinctMembers present)).imp (among _) (among _)

/-- A bound on the identities of all members can be told from those that are listed. -/
theorem members_below_iff {reference : Reference ε} {bound : Nat} :
    (∀ member ∈ reference.members, member.id.index < bound) ↔
      ∀ member ∈ reference.exploratory ++ reference.finals, member.id.index < bound := by
  constructor
  · intro listed member present
    obtain ⟨other, known, same⟩ := exists_mem_distinctMembers present
    exact same ▸ listed other known
  · exact fun all member listed => all member (mem_of_mem_distinctMembers listed)

/-- The reference with the same stage whose members are what the members of `reference` become. -/
def moved (reference : Reference ε) (id : ReferenceId) (image : Member ε → Member ε) :
    Reference ε where
  id
  stage := reference.stage
  exploratory := (reference.members.filter reference.isExploratory).map image
  finals := (reference.members.filter reference.isFinal).map image

/-- The members of a moved reference are what the members of the reference have become. -/
theorem mem_members_moved {reference : Reference ε} {image : Member ε → Member ε} {id : ReferenceId}
    (distinct : ∀ one ∈ reference.members, ∀ other ∈ reference.members,
      (image one).id = (image other).id → one = other) {new : Member ε} :
    new ∈ (reference.moved id image).members ↔ ∃ member ∈ reference.members, new = image member := by
  have listed {new : Member ε} :
      new ∈ (reference.moved id image).exploratory ++ (reference.moved id image).finals ↔
        ∃ member ∈ reference.members, new = image member := by
    simp only [moved, List.mem_append, List.mem_map, List.mem_filter]
    constructor
    · intro given
      rcases given with ⟨member, ⟨present, -⟩, rfl⟩ | ⟨member, ⟨present, -⟩, rfl⟩
      · exact ⟨member, present, rfl⟩
      · exact ⟨member, present, rfl⟩
    · intro image
      obtain ⟨member, present, rfl⟩ := image
      exact (reference.exploratory_or_final present).imp (fun explores => ⟨member, ⟨present, explores⟩, rfl⟩)
        fun commits => ⟨member, ⟨present, commits⟩, rfl⟩
  rw [members, mem_distinctMembers, listed]
  intro one first other second same
  obtain ⟨oneMember, onePresent, rfl⟩ := listed.mp first
  obtain ⟨otherMember, otherPresent, rfl⟩ := listed.mp second
  rw [distinct oneMember onePresent otherMember otherPresent same]

end Reference

namespace Memo
variable {memo : Memo ε} {id : ReferenceId} {reference : Reference ε}

theorem mem_entries_iff : id ∈ memo.entries ↔ ∃ reference, memo.get? id = some reference := by
  rw [← Std.ExtTreeMap.isSome_getElem?_iff_mem, Option.isSome_iff_exists]
  rfl

theorem index_lt_of_get? (found : memo.get? id = some reference) :
    id.index < memo.ids.allocated :=
  memo.handedOut id (mem_entries_iff.mpr ⟨reference, found⟩)

theorem find_of_get? (found : memo.get? id = some reference) :
    memo.find id = .ok reference := by
  simp only [find, found]

theorem find_of_none (missing : memo.get? id = none) : memo.find id = .error (.unknownReference id) := by
  simp only [find, missing]

@[simp] theorem get?_empty (id : ReferenceId) : (empty : Memo ε).get? id = none :=
  Std.ExtTreeMap.getElem?_empty

theorem get?_insert (memo : Memo ε) (stage : PlannerStage) (exploratory finals : List (Member ε))
    (id : ReferenceId) :
    (memo.insert stage exploratory finals).2.get? id =
      if id = ⟨memo.ids.allocated⟩ then some { id := ⟨memo.ids.allocated⟩, stage, exploratory, finals }
      else memo.get? id := by
  unfold get? insert
  rw [Std.ExtTreeMap.getElem?_insert]
  simp only [Std.LawfulEqOrd.compare_eq_iff_eq, Supply.draw, @eq_comm _ id]

theorem get?_insert_old {stage : PlannerStage} {exploratory finals : List (Member ε)}
    (found : memo.get? id = some reference) :
    (memo.insert stage exploratory finals).2.get? id = some reference := by
  have older : id ≠ ⟨memo.ids.allocated⟩ := by
    rintro rfl
    exact Nat.lt_irrefl _ (index_lt_of_get? found)
  rw [get?_insert, if_neg older, found]

theorem get?_insert_new (stage : PlannerStage) (exploratory finals : List (Member ε)) :
    (memo.insert stage exploratory finals).2.get? ⟨memo.ids.allocated⟩ =
      some { id := ⟨memo.ids.allocated⟩, stage, exploratory, finals } := by
  rw [get?_insert, if_pos rfl]

theorem size_insert (memo : Memo ε) (stage : PlannerStage) (exploratory finals : List (Member ε)) :
    (memo.insert stage exploratory finals).2.size = memo.size + 1 := by
  have new : ¬ memo.entries.contains ⟨memo.ids.allocated⟩ = true := by
    intro present
    exact Nat.lt_irrefl _ (memo.handedOut _ present)
  exact Std.ExtTreeMap.size_insert.trans (if_neg new)

/-- Adds a reference with the same stage whose members are what the members of `reference` become. -/
def insertMoved (memo : Memo ε) (reference : Reference ε) (image : Member ε → Member ε) : ReferenceId × Memo ε :=
  memo.insert reference.stage ((reference.members.filter reference.isExploratory).map image)
    ((reference.members.filter reference.isFinal).map image)

theorem get?_insertMoved (memo : Memo ε) (reference : Reference ε) (image : Member ε → Member ε) :
    (memo.insertMoved reference image).2.get? (memo.insertMoved reference image).1 =
      some (reference.moved (memo.insertMoved reference image).1 image) :=
  get?_insert_new _ _ _

/-- The later memo has come from `memo` by inserting references. -/
inductive Inserted (memo : Memo ε) : Memo ε → Prop where
  | refl : Inserted memo memo
  | insert {later : Memo ε} (stage : PlannerStage) (exploratory finals : List (Member ε)) :
      Inserted memo later → Inserted memo (later.insert stage exploratory finals).2

theorem Inserted.trans {between later : Memo ε} (first : memo.Inserted between) (second : between.Inserted later) :
    memo.Inserted later := by
  induction second with
  | refl => exact first
  | insert stage exploratory finals _ ih => exact .insert stage exploratory finals ih

/-- References that were there stay what they are. -/
theorem Inserted.grown {later : Memo ε} (inserted : memo.Inserted later) (id : ReferenceId)
    (reference : Reference ε) (found : memo.get? id = some reference) : later.get? id = some reference := by
  induction inserted with
  | refl => exact found
  | insert _ _ _ _ ih => exact get?_insert_old ih

/-- Distinct references of a memo are no more than it has. -/
theorem length_le_size {ids : List ReferenceId} (distinct : ids.Nodup)
    (known : ∀ id ∈ ids, ∃ reference, memo.get? id = some reference) : ids.length ≤ memo.size := by
  have among : ids ⊆ memo.entries.keys := fun id member =>
    Std.ExtTreeMap.mem_keys.mpr (mem_entries_iff.mpr (known id member))
  rw [size, ← Std.ExtTreeMap.length_keys]
  exact (distinct.subperm among).length_le

end Memo

end QueryOptimizer
