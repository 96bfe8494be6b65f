import QueryOptimizer.Memo.Correlation
import QueryOptimizer.Proofs.DependencyOrder
import QueryOptimizer.Proofs.Memo.Basic

/-!
What can be reached from given references of a memo. The walk over a memo visits exactly that, and puts
it in an order if it is complete and has no cycles.
-/
namespace QueryOptimizer.Memo
variable {ε : Type} [RelationalExpression ε]

/-- Some member of the reference called `id` ranges over `input`. -/
def RangesOver (memo : Memo ε) (id input : ReferenceId) : Prop :=
  ∃ reference, memo.get? id = some reference ∧ input ∈ reference.inputs

/-- The reference called `id` is one of `ids`, or one of them ranges over it through any number of
others. -/
def Reaches (memo : Memo ε) (ids : List ReferenceId) (id : ReferenceId) : Prop :=
  ∃ start ∈ ids, Relation.ReflTransGen memo.RangesOver start id

/-- What can be reached from `ids` is all in the memo, and nothing in it ranges over itself. -/
structure Grounded (memo : Memo ε) (ids : List ReferenceId) : Prop where
  complete : ∀ id, memo.Reaches ids id → ∃ reference, memo.get? id = some reference
  acyclic : ∀ id, memo.Reaches ids id → ¬ Relation.TransGen memo.RangesOver id id

/-- What is wrong with a graph of references that is not grounded, as an error: a reference that can be
reached is not in the memo, or all of them are and one depends on itself. -/
inductive Broken (memo : Memo ε) (ids : List ReferenceId) : MemoError → Prop where
  | missing {id : ReferenceId} : memo.Reaches ids id → memo.get? id = none →
      Broken memo ids (.unknownReference id)
  | cyclic {id : ReferenceId} : (∀ other, memo.Reaches ids other → ∃ reference, memo.get? other = some reference) →
      memo.Reaches ids id → Relation.TransGen memo.RangesOver id id → Broken memo ids .cyclicGraph

variable {memo : Memo ε} {ids : List ReferenceId} {id input : ReferenceId}

theorem complete_iff : (∀ id, memo.Reaches ids id → ∃ reference, memo.get? id = some reference) ↔
    ¬ ∃ id, memo.Reaches ids id ∧ memo.get? id = none := by
  simp only [not_exists, not_and, ← Option.isSome_iff_exists, Option.isSome_iff_ne_none, ne_eq]

theorem Grounded.not_broken (grounded : memo.Grounded ids) (error : MemoError) : ¬ memo.Broken ids error := by
  intro broken
  cases broken with
  | missing reached absent => exact complete_iff.mp grounded.complete ⟨_, reached, absent⟩
  | cyclic _ reached cycle => exact grounded.acyclic _ reached cycle

/-- Something is missing exactly when it is what is reported. -/
theorem Broken.missing_iff {error : MemoError} (broken : memo.Broken ids error) :
    (∃ id, error = .unknownReference id) ↔ ∃ id, memo.Reaches ids id ∧ memo.get? id = none := by
  cases broken with
  | missing reached absent => exact iff_of_true ⟨_, rfl⟩ ⟨_, reached, absent⟩
  | cyclic complete => exact iff_of_false nofun (complete_iff.mp complete)

/-- A cycle is reported exactly when there is one and nothing is missing. -/
theorem Broken.cyclic_iff {error : MemoError} (broken : memo.Broken ids error) :
    error = .cyclicGraph ↔
      (∀ id, memo.Reaches ids id → ∃ reference, memo.get? id = some reference) ∧
        ∃ id, memo.Reaches ids id ∧ Relation.TransGen memo.RangesOver id id := by
  cases broken with
  | missing reached absent =>
    exact iff_of_false nofun fun cyclic => complete_iff.mp cyclic.1 ⟨_, reached, absent⟩
  | cyclic complete reached cycle => exact iff_of_true rfl ⟨complete, _, reached, cycle⟩

theorem mem_inputs {reference : Reference ε} : input ∈ reference.inputs ↔
    ∃ member ∈ reference.members,
      ∃ quantifier ∈ RelationalExpression.quantifiers member.expression, quantifier.rangesOver = input := by
  simp only [Reference.inputs, List.mem_flatMap, List.mem_map]

theorem RangesOver.mem_inputs {reference : Reference ε} (found : memo.get? id = some reference) :
    memo.RangesOver id input ↔ input ∈ reference.inputs := by
  constructor
  · intro ranges
    obtain ⟨other, same, member⟩ := ranges
    obtain rfl := Option.some.inj (found.symm.trans same)
    exact member
  · exact fun member => ⟨reference, found, member⟩

/-- A reference ranges over what the quantifiers of its members range over. -/
theorem RangesOver.of_quantifier {reference : Reference ε} {member : Member ε} {quantifier : Quantifier}
    (found : memo.get? id = some reference) (present : member ∈ reference.members)
    (input : quantifier ∈ RelationalExpression.quantifiers member.expression) :
    memo.RangesOver id quantifier.rangesOver :=
  ⟨reference, found, Memo.mem_inputs.mpr ⟨member, present, quantifier, input, rfl⟩⟩

theorem Reaches.of_mem (member : id ∈ ids) : memo.Reaches ids id :=
  ⟨id, member, .refl⟩

theorem Reaches.tail (reached : memo.Reaches ids id) (ranges : memo.RangesOver id input) :
    memo.Reaches ids input :=
  let ⟨start, member, path⟩ := reached
  ⟨start, member, path.tail ranges⟩

/-- What can be reached from something reachable is reachable itself. -/
theorem Reaches.trans (reached : memo.Reaches ids id) {further : ReferenceId}
    (beyond : memo.Reaches [id] further) : memo.Reaches ids further := by
  obtain ⟨start, member, path⟩ := reached
  obtain ⟨middle, single, continued⟩ := beyond
  obtain rfl := List.mem_singleton.mp single
  exact ⟨start, member, path.trans continued⟩

theorem Grounded.of_reaches (grounded : memo.Grounded ids) (reached : memo.Reaches ids id) :
    memo.Grounded [id] :=
  ⟨fun other beyond => grounded.complete other (reached.trans beyond),
    fun other beyond => grounded.acyclic other (reached.trans beyond)⟩

theorem Grounded.of_each (each : ∀ id ∈ ids, memo.Grounded [id]) : memo.Grounded ids := by
  have single {id : ReferenceId} (reached : memo.Reaches ids id) : ∃ start ∈ ids, memo.Reaches [start] id := by
    obtain ⟨start, member, path⟩ := reached
    exact ⟨start, member, start, List.mem_singleton_self start, path⟩
  constructor
  · intro id reached
    obtain ⟨start, member, within⟩ := single reached
    exact (each start member).complete id within
  · intro id reached
    obtain ⟨start, member, within⟩ := single reached
    exact (each start member).acyclic id within

/-- If references are inserted after those they range over, nothing is missing and there are no cycles. -/
theorem Grounded.of_layered (inserted : ∀ id ∈ ids, ∃ reference, memo.get? id = some reference)
    (layered : ∀ id input, memo.RangesOver id input →
      input.index < id.index ∧ ∃ reference, memo.get? input = some reference) : memo.Grounded ids := by
  constructor
  · intro id reached
    obtain ⟨start, given, path⟩ := reached
    cases path with
    | refl => exact inserted _ given
    | tail _ ranges => exact (layered _ _ ranges).2
  · intro id _ cycle
    have lower {one other : ReferenceId} (path : Relation.TransGen memo.RangesOver one other) :
        other.index < one.index := by
      induction path with
      | single ranges => exact (layered _ _ ranges).1
      | tail _ ranges ih => exact (layered _ _ ranges).1.trans ih
    exact Nat.lt_irrefl _ (lower cycle)

/-- A walk that has visited the first `visited` elements has found them in the memo, and what they range
over, and nothing that is out of reach. -/
structure Walked (memo : Memo ε) (ids : List ReferenceId) (visited : Nat)
    (order : DependencyOrder ReferenceId) : Prop where
  started : ∀ id ∈ ids, id ∈ order.elements
  reached : ∀ id ∈ order.elements, memo.Reaches ids id
  known : ∀ id ∈ order.elements.take visited, ∃ reference, memo.get? id = some reference
  dependencies : ∀ id input, input ∈ order.dependenciesOf id ↔
    id ∈ order.elements.take visited ∧ memo.RangesOver id input
  found : ∀ id ∈ order.elements.take visited, ∀ input, memo.RangesOver id input → input ∈ order.elements

theorem Walked.start (memo : Memo ε) (ids : List ReferenceId) :
    memo.Walked ids 0 (ids.foldl DependencyOrder.addElement .empty) where
  started id member := (DependencyOrder.mem_foldl_addElement _ _).mpr (.inr member)
  reached id member := by
    rcases (DependencyOrder.mem_foldl_addElement _ _).mp member with none | given
    · cases none
    · exact .of_mem given
  known id member := by simp at member
  dependencies id input := by
    rw [DependencyOrder.dependenciesOf_foldl_addElement]
    simp [DependencyOrder.empty, DependencyOrder.dependenciesOf]
  found id member := by simp at member

/-- A visit adds what the visited reference ranges over. -/
theorem Walked.visit {visited : Nat} {order : DependencyOrder ReferenceId} (walked : memo.Walked ids visited order)
    (next : order.elements[visited]? = some id) {reference : Reference ε}
    (known : memo.get? id = some reference) :
    memo.Walked ids (visited + 1) (order.addDependencies id reference.inputs) := by
  have present : id ∈ order.elements := List.mem_of_getElem? next
  have earlier : ∀ other, other ∈ (order.addDependencies id reference.inputs).elements.take (visited + 1) ↔
      other ∈ order.elements.take visited ∨ other = id := by
    intro other
    obtain ⟨added, whole⟩ := order.elements_addDependencies_prefix present reference.inputs
    have bound := (List.getElem?_eq_some_iff.mp next).1
    rw [← whole, List.take_append_of_le_length bound, List.take_add_one, next]
    simp
  have ranges (other : ReferenceId) : memo.RangesOver id other ↔ other ∈ reference.inputs :=
    RangesOver.mem_inputs known
  constructor
  case started =>
    exact fun other member => (order.mem_addDependencies present _).mpr (.inl (walked.started other member))
  case reached =>
    intro other member
    rcases (order.mem_addDependencies present _).mp member with old | new
    · exact walked.reached other old
    · exact (walked.reached id present).tail ((ranges other).mpr new)
  case known =>
    intro other member
    rcases (earlier other).mp member with old | rfl
    · exact walked.known other old
    · exact ⟨reference, known⟩
  case dependencies =>
    intro other input
    rw [order.mem_dependenciesOf_addDependencies, walked.dependencies, earlier, ← ranges input]
    by_cases same : id = other
    · subst same
      simp only [true_and, or_true]
      exact or_iff_right_of_imp And.right
    · simp only [same, Ne.symm same, false_and, or_false]
  case found =>
    intro other member input needed
    refine (order.mem_addDependencies present _).mpr ?_
    rcases (earlier other).mp member with old | rfl
    · exact .inl (walked.found other old input needed)
    · exact .inr ((ranges input).mp needed)

/-- A walk cannot have visited more references than the memo has. -/
theorem Walked.visited_le {visited : Nat} {order : DependencyOrder ReferenceId}
    (walked : memo.Walked ids visited order) (among : visited ≤ order.elements.length) : visited ≤ memo.size := by
  have bound := length_le_size (order.nodup_elements.sublist (List.take_sublist visited _)) walked.known
  rwa [List.length_take_of_le among] at bound

theorem Walked.finished {visited : Nat} {order : DependencyOrder ReferenceId}
    (walked : memo.Walked ids visited order) (none : order.elements[visited]? = none) :
    memo.Walked ids order.elements.length order := by
  have rest : order.elements.take visited = order.elements.take order.elements.length := by
    rw [List.take_length, List.take_of_length_le (List.getElem?_eq_none_iff.mp none)]
  exact ⟨walked.started, walked.reached, rest ▸ walked.known, rest ▸ walked.dependencies, rest ▸ walked.found⟩

/-- A walk either visits all that can be reached, for which as many visits as there are references are
enough, or stops at a reference that can be reached and is not in the memo. -/
theorem walk_ends {remaining visited : Nat} (whole : visited + remaining = memo.size)
    {order : DependencyOrder ReferenceId} (walked : memo.Walked ids visited order) :
    (∃ final, memo.walk remaining visited order = .ok final ∧ memo.Walked ids final.elements.length final) ∨
      ∃ id, memo.walk remaining visited order = .error (.unknownReference id) ∧ memo.Reaches ids id ∧
        memo.get? id = none := by
  induction remaining generalizing visited order with
  | zero =>
    rcases next : order.elements[visited]? with _ | id
    · exact .inl ⟨order, by rw [walk, next], walked.finished next⟩
    · have present := List.mem_of_getElem? next
      cases known : memo.get? id with
      | none =>
        exact .inr ⟨id, by rw [walk, next]; simp only [find_of_none known]; rfl, walked.reached id present, known⟩
      | some reference =>
        -- One visit more than there are references.
        have more := (walked.visit next known).visited_le
          (Nat.lt_of_lt_of_le (List.getElem?_eq_some_iff.mp next).1
            (order.elements_addDependencies_prefix present reference.inputs).length_le)
        omega
  | succ remaining ih =>
    rcases next : order.elements[visited]? with _ | id
    · exact .inl ⟨order, by rw [walk, next], walked.finished next⟩
    · cases known : memo.get? id with
      | none =>
        refine .inr ⟨id, ?_, walked.reached id (List.mem_of_getElem? next), known⟩
        rw [walk, next]
        simp only [find_of_none known]
        rfl
      | some reference =>
        have continues : memo.walk (remaining + 1) visited order =
            memo.walk remaining (visited + 1) (order.addDependencies id reference.inputs) := by
          rw [walk, next]
          simp only [find_of_get? known]
          rfl
        rw [continues]
        exact ih (by omega) (walked.visit next known)

/-- The dependencies of a graph are found, unless something that can be reached is missing. -/
theorem dependencyOrder_ends (memo : Memo ε) (ids : List ReferenceId) :
    (∃ order, memo.dependencyOrder ids = .ok order ∧
      (∀ id ∈ order.elements, ∃ reference, memo.get? id = some reference) ∧
      (∀ id, id ∈ order.elements ↔ memo.Reaches ids id) ∧
      ∀ id input, input ∈ order.dependenciesOf id ↔ id ∈ order.elements ∧ memo.RangesOver id input) ∨
    ∃ id, memo.dependencyOrder ids = .error (.unknownReference id) ∧ memo.Reaches ids id ∧ memo.get? id = none := by
  refine (walk_ends (Nat.zero_add memo.size) (.start memo ids)).imp_left ?_
  intro finished
  obtain ⟨order, found, walked⟩ := finished
  have visited := List.take_length (l := order.elements)
  have closed := visited ▸ walked.found
  refine ⟨order, found, visited ▸ walked.known, ?_, visited ▸ walked.dependencies⟩
  intro id
  constructor
  · exact walked.reached id
  · intro reached
    obtain ⟨start, given, path⟩ := reached
    induction path with
    | refl => exact walked.started start given
    | tail _ ranges ih => exact closed _ ih _ ranges

/-- Everything that can be reached has an order in which each reference comes once, after those it ranges
over, unless the graph is broken; and then the error says what is wrong with it. -/
theorem topologicalOrder_ends (memo : Memo ε) (ids : List ReferenceId) :
    (∃ order, memo.topologicalOrder ids = .ok order ∧ memo.Grounded ids ∧ order.Nodup ∧
      (∀ id, id ∈ order ↔ memo.Reaches ids id) ∧ DependencyOrder.Arranged memo.RangesOver [] order) ∨
    ∃ error, memo.topologicalOrder ids = .error error ∧ memo.Broken ids error := by
  obtain ⟨graph, walked, known, elements, dependencies⟩ | ⟨id, stopped, reached, absent⟩ :=
    dependencyOrder_ends memo ids
  case inr =>
    refine .inr ⟨_, ?_, .missing reached absent⟩
    simp only [topologicalOrder, stopped]
    rfl
  have complete : ∀ id, memo.Reaches ids id → ∃ reference, memo.get? id = some reference :=
    fun id reached => known id ((elements id).mpr reached)
  cases emitted : graph.topologicalOrder? with
  | some order =>
    have sorted : memo.topologicalOrder ids = .ok order := by
      simp only [topologicalOrder, walked, bind, Except.bind, emitted]
      rfl
    obtain ⟨arranged, permuted⟩ := DependencyOrder.topologicalOrder?_arranged emitted
    have member (id : ReferenceId) : id ∈ order ↔ memo.Reaches ids id := by rw [permuted.mem_iff, elements]
    have ordered : DependencyOrder.Arranged memo.RangesOver [] order := arranged.mono fun id present input ranges =>
      (dependencies id input).mpr ⟨permuted.mem_iff.mp present, ranges⟩
    refine .inl ⟨order, sorted, ⟨complete, ?_⟩, permuted.nodup_iff.mpr graph.nodup_elements, member, ordered⟩
    exact fun id reached => ordered.acyclic id ((member id).mpr reached)
  | none =>
    have stuck : memo.topologicalOrder ids = .error .cyclicGraph := by
      simp only [topologicalOrder, walked, bind, Except.bind, emitted]
      rfl
    refine .inr ⟨_, stuck, ?_⟩
    obtain ⟨id, cycle⟩ := DependencyOrder.topologicalOrder?_eq_none_iff.mp emitted
    obtain ⟨input, needed, -⟩ := Relation.TransGen.head'_iff.mp cycle
    refine .cyclic complete ((elements id).mp (DependencyOrder.mem_elements_of_dependency needed).1) ?_
    exact Relation.TransGen.mono (fun id input needed => ((dependencies id input).mp needed).2) id id cycle

theorem topologicalOrder_ok (grounded : memo.Grounded ids) :
    ∃ order, memo.topologicalOrder ids = .ok order ∧ order.Nodup ∧
      (∀ id, id ∈ order ↔ memo.Reaches ids id) ∧ DependencyOrder.Arranged memo.RangesOver [] order := by
  obtain ⟨order, sorted, -, facts⟩ | ⟨error, -, broken⟩ := topologicalOrder_ends memo ids
  · exact ⟨order, sorted, facts⟩
  · exact False.elim (grounded.not_broken error broken)

/-- What follows for a reference from its inputs holds of everything that can be reached. -/
theorem Grounded.induction (grounded : memo.Grounded ids) {holds : ReferenceId → Prop}
    (step : ∀ id, memo.Reaches ids id → (∀ input, memo.RangesOver id input → holds input) → holds id) :
    ∀ id, memo.Reaches ids id → holds id := by
  obtain ⟨order, -, -, elements, arranged⟩ := topologicalOrder_ok grounded
  intro id reached
  refine arranged.forall_mem (by simp) ?_ id ((elements id).mpr reached)
  exact fun other member => step other ((elements other).mp member)

end QueryOptimizer.Memo
