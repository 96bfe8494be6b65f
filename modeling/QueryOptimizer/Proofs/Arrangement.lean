import Mathlib

/-!
Lists of elements that come after all that they depend on. Such a list can always be put together one ready
element after the other, and only a cycle keeps elements from being ready.
-/
namespace QueryOptimizer.DependencyOrder
variable {α : Type}

/-- The elements of a list that follows `before` come after all that they depend on. -/
inductive Arranged (dependsOn : α → α → Prop) : (before : List α) → List α → Prop where
  | nil : Arranged dependsOn before []
  | cons : (∀ dependency, dependsOn element dependency → dependency ∈ before) →
      Arranged dependsOn (before ++ [element]) rest → Arranged dependsOn before (element :: rest)

theorem Arranged.mono {dependsOn weaker : α → α → Prop} {before elements : List α}
    (arranged : Arranged dependsOn before elements)
    (fewer : ∀ element ∈ elements, ∀ dependency, weaker element dependency → dependsOn element dependency) :
    Arranged weaker before elements := by
  induction arranged with
  | nil => exact .nil
  | cons emitted _ ih =>
    refine .cons (fun dependency needed => emitted dependency (fewer _ (by simp) dependency needed)) (ih ?_)
    exact fun element member => fewer element (by simp [member])

/-- What follows from the dependencies of an element holds of all elements of an order. -/
theorem Arranged.forall_mem {dependsOn : α → α → Prop} {before elements : List α}
    (arranged : Arranged dependsOn before elements) {holds : α → Prop}
    (emitted : ∀ element ∈ before, holds element)
    (step : ∀ element ∈ elements, (∀ dependency, dependsOn element dependency → holds dependency) →
      holds element) :
    ∀ element ∈ elements, holds element := by
  induction arranged with
  | nil => simp
  | cons earlier _ ih =>
    have first := step _ (List.mem_cons_self ..) fun dependency needed =>
      emitted dependency (earlier dependency needed)
    have rest := ih
      (fun element member => (List.mem_append.mp member).elim (emitted element) fun last =>
        (List.mem_singleton.mp last) ▸ first)
      (fun element member => step element (List.mem_cons_of_mem _ member))
    intro element member
    rcases List.mem_cons.mp member with rfl | later
    · exact first
    · exact rest element later

/-- Elements that come after all that they depend on do not depend on themselves. -/
theorem Arranged.acyclic {dependsOn : α → α → Prop} {elements : List α}
    (arranged : Arranged dependsOn [] elements) :
    ∀ element ∈ elements, ¬ Relation.TransGen dependsOn element element := by
  have accessible : ∀ element ∈ elements, Acc (fun one other => dependsOn other one) element :=
    arranged.forall_mem (by simp) fun element _ earlier => .intro element earlier
  intro element member cycle
  have descent := (accessible element member).transGen
  rw [← Relation.transGen_swap] at cycle
  clear member
  induction descent with
  | intro element _ ih => exact ih element cycle cycle

/-- The element is not emitted yet, but all that it depends on is. -/
structure Ready (dependsOn : α → α → Prop) (elements before : List α) (element : α) : Prop where
  listed : element ∈ elements
  waiting : element ∉ before
  free : ∀ dependency, dependsOn element dependency → dependency ∈ before

section FirstReady
variable [DecidableEq α]

/-- One element after the other is emitted after `before`, each of them the first of all that are ready. -/
inductive Greedy (dependsOn : α → α → Prop) (elements : List α) : (before : List α) → List α → Prop where
  | nil : Greedy dependsOn elements before []
  | cons : Ready dependsOn elements before element →
      (∀ other, Ready dependsOn elements before other → elements.idxOf element ≤ elements.idxOf other) →
      Greedy dependsOn elements (before ++ [element]) rest → Greedy dependsOn elements before (element :: rest)

namespace Greedy
variable {dependsOn : α → α → Prop} {elements before emitted : List α}

theorem arranged (greedy : Greedy dependsOn elements before emitted) :
    Arranged dependsOn before emitted := by
  induction greedy with
  | nil => exact .nil
  | cons ready _ _ ih => exact .cons ready.free ih

theorem mem (greedy : Greedy dependsOn elements before emitted) :
    ∀ element ∈ emitted, element ∈ elements ∧ element ∉ before := by
  induction greedy with
  | nil => simp
  | cons ready _ _ ih =>
    refine List.forall_mem_cons.mpr ⟨⟨ready.listed, ready.waiting⟩, fun element member => ?_⟩
    obtain ⟨listed, outside⟩ := ih element member
    exact ⟨listed, fun earlier => outside (List.mem_append_left _ earlier)⟩

theorem nodup (greedy : Greedy dependsOn elements before emitted) : emitted.Nodup := by
  induction greedy with
  | nil => exact .nil
  | cons _ _ rest ih =>
    refine List.nodup_cons.mpr ⟨fun again => ?_, ih⟩
    exact (rest.mem _ again).2 (List.mem_append_right _ (List.mem_singleton_self _))

/-- As many elements as there are can only be all of them. -/
theorem perm (greedy : Greedy dependsOn elements before emitted) (whole : emitted.length = elements.length) :
    emitted.Perm elements :=
  (List.subperm_of_subset greedy.nodup fun element member => (greedy.mem element member).1).perm_of_length_le
    (Nat.le_of_eq whole.symm)

/-- The first of all that are ready is no matter of choice, so that only one order goes on to the end. -/
theorem unique {others : List α} (one : Greedy dependsOn elements before emitted)
    (other : Greedy dependsOn elements before others)
    (finished : ∀ element, ¬ Ready dependsOn elements (before ++ emitted) element)
    (ended : ∀ element, ¬ Ready dependsOn elements (before ++ others) element) : emitted = others := by
  induction one generalizing others with
  | nil =>
    cases other with
    | nil => rfl
    | cons ready _ _ => exact False.elim (finished _ (by simpa using ready))
  | cons ready first _ ih =>
    cases other with
    | nil => exact False.elim (ended _ (by simpa using ready))
    | cons next least rest =>
      obtain rfl := (List.idxOf_inj ready.listed).mp (Nat.le_antisymm (first _ next) (least _ ready))
      rw [ih rest (by simpa using finished) (by simpa using ended)]

/-- Elements that come after their dependencies from the start are emitted in their order. -/
theorem of_arranged {rest : List α} (arranged : Arranged dependsOn before rest)
    (distinct : (before ++ rest).Nodup) : Greedy dependsOn (before ++ rest) before rest := by
  induction rest generalizing before with
  | nil => exact .nil
  | cons element rest ih =>
    cases arranged with
    | cons earlier later =>
      have outside : element ∉ before := fun member =>
        List.disjoint_of_nodup_append distinct member (List.mem_cons_self ..)
      have whole : before ++ element :: rest = (before ++ [element]) ++ rest := by simp
      refine .cons ⟨by simp, outside, earlier⟩ (fun other ready => ?_) ?_
      · rw [List.idxOf_append_of_notMem outside, List.idxOf_append_of_notMem ready.waiting,
          List.idxOf_cons_self]
        exact Nat.add_le_add_left (Nat.zero_le _) _
      · rw [whole] at distinct ⊢
        exact ih later distinct

end Greedy

end FirstReady

/-- Among finitely many elements without cycles, one depends on no other of them. -/
theorem exists_not_dependsOn {dependsOn : α → α → Prop} (elements : List α) (nonempty : elements ≠ [])
    (acyclic : ∀ element ∈ elements, ¬ Relation.TransGen dependsOn element element) :
    ∃ element ∈ elements, ∀ other ∈ elements, ¬ dependsOn element other := by
  let below (one other : { element // element ∈ elements }) : Prop :=
    Relation.TransGen dependsOn other.1 one.1
  have transitive : IsTrans _ below := ⟨fun _ _ _ first second => second.trans first⟩
  have irreflexive : Std.Irrefl below := ⟨fun element => acyclic element.1 element.2⟩
  have finite : Finite { element // element ∈ elements } := (List.finite_toSet elements).to_subtype
  have wellFounded : WellFounded below := Finite.wellFounded_of_trans_of_irrefl below
  obtain ⟨first, member⟩ := List.exists_mem_of_ne_nil elements nonempty
  obtain ⟨least, -, minimal⟩ := wellFounded.has_min Set.univ ⟨⟨first, member⟩, trivial⟩
  refine ⟨least.1, least.2, ?_⟩
  intro other present needed
  exact minimal ⟨other, present⟩ trivial (.single needed)

end QueryOptimizer.DependencyOrder
