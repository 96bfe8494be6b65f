import QueryOptimizer.Proofs.Rule.Mapping
import QueryOptimizer.Proofs.Rule.Set

/-!
What becomes of a builder. A dependency that names no rule is reported first, then a cycle; otherwise the
rules are ordered after the rules that their dependencies refer to, and none is lost or taken twice.
-/
namespace QueryOptimizer.RuleSetBuilder
variable {ν ω α : Type}

/-- A list either has a property throughout or has a first element without it. -/
theorem forall_or_exists_first {β : Type} (holds : β → Prop) (list : List β) :
    (∀ one ∈ list, holds one) ∨ ∃ before first after, list = before ++ first :: after ∧
      (∀ one ∈ before, holds one) ∧ ¬ holds first := by
  induction list with
  | nil => exact .inl fun _ member => nomatch member
  | cons head rest ih =>
    by_cases first : holds head
    · rcases ih with all | ⟨before, next, after, rfl, earlier, fails⟩
      · exact .inl (List.forall_mem_cons.mpr ⟨first, all⟩)
      · exact .inr ⟨head :: before, next, after, rfl, List.forall_mem_cons.mpr ⟨first, earlier⟩, fails⟩
    · exact .inr ⟨[], head, rest, rfl, List.forall_mem_nil _, first⟩

/-- Some rule was added under this name. -/
def Knows (builder : RuleSetBuilder ν ω α) (name : String) : Prop :=
  ∃ entry ∈ builder.entries, entry.1.name = name

/-- The rule at this position is the first one that was added under the name. -/
structure Refers (builder : RuleSetBuilder ν ω α) (name : String) (position : Nat) : Prop where
  named : ∃ entry, builder.entries[position]? = some entry ∧ entry.1.name = name
  first : ∀ earlier < position, ∀ entry, builder.entries[earlier]? = some entry → entry.1.name ≠ name

/-- The rule at `position` has to come after the one at `dependency`. -/
def DependsOn (builder : RuleSetBuilder ν ω α) (position dependency : Nat) : Prop :=
  ∃ entry, builder.entries[position]? = some entry ∧ ∃ name ∈ entry.2, builder.Refers name dependency

/-- All names of dependencies are those of rules. -/
def Resolved (builder : RuleSetBuilder ν ω α) : Prop :=
  ∀ entry ∈ builder.entries, ∀ name ∈ entry.2, builder.Knows name

/-- The rule is the first with a dependency that names no rule, and this is the first such name. -/
def FirstUnknown (builder : RuleSetBuilder ν ω α) (rule : Rule ν ω α) (name : String) : Prop :=
  ∃ before known rest after, builder.entries = before ++ (rule, known ++ name :: rest) :: after ∧
    (∀ entry ∈ before, ∀ dependency ∈ entry.2, builder.Knows dependency) ∧
    (∀ dependency ∈ known, builder.Knows dependency) ∧ ¬ builder.Knows name

variable {builder : RuleSetBuilder ν ω α} {name : String} {position count : Nat}

theorem position?_eq_some_iff : builder.position? name = some position ↔ builder.Refers name position := by
  rw [position?, List.findIdx?_eq_some_iff_getElem]
  constructor
  · rintro ⟨bound, same, different⟩
    refine ⟨⟨_, List.getElem?_eq_getElem bound, by simpa using same⟩, fun earlier lower entry found => ?_⟩
    obtain ⟨_, rfl⟩ := List.getElem?_eq_some_iff.mp found
    simpa using different earlier lower
  · rintro ⟨⟨entry, found, same⟩, different⟩
    obtain ⟨bound, rfl⟩ := List.getElem?_eq_some_iff.mp found
    refine ⟨bound, by simpa using same, fun earlier lower => ?_⟩
    simpa using different earlier lower _ (List.getElem?_eq_getElem (lower.trans bound))

theorem position?_eq_none_iff : builder.position? name = none ↔ ¬ builder.Knows name := by
  simp [position?, List.findIdx?_eq_none_iff, Knows]

theorem Refers.lt_length (refers : builder.Refers name position) : position < builder.entries.length := by
  obtain ⟨entry, found, -⟩ := refers.named
  exact (List.getElem?_eq_some_iff.mp found).1

theorem resolved_or_firstUnknown (builder : RuleSetBuilder ν ω α) :
    builder.Resolved ∨ ∃ rule name, builder.FirstUnknown rule name := by
  refine (forall_or_exists_first _ builder.entries).imp_right ?_
  rintro ⟨before, ⟨rule, dependencies⟩, after, split, resolved, unresolved⟩
  rcases forall_or_exists_first builder.Knows dependencies with all | ⟨known, name, rest, rfl, earlier, unknown⟩
  · exact absurd all unresolved
  · exact ⟨rule, name, before, known, rest, after, split, resolved, earlier, unknown⟩

/-- The dependencies of the rules before `count` are part of the order. -/
structure Registered (builder : RuleSetBuilder ν ω α) (count : Nat) (order : DependencyOrder Nat) : Prop where
  listed : ∀ position < count, position ∈ order.elements
  among : ∀ position ∈ order.elements, position < builder.entries.length
  depends : ∀ position dependency, order.DependsOn position dependency ↔
    position < count ∧ builder.DependsOn position dependency

theorem orderAfter_of_known {names : List String} (rule : Rule ν ω α)
    (known : ∀ name ∈ names, builder.Knows name) (order : DependencyOrder Nat) :
    names.foldlM (builder.orderAfter rule count) order =
      .ok (order.addDependencies count (names.filterMap builder.position?)) := by
  induction names generalizing order with
  | nil => rfl
  | cons name rest ih =>
    obtain ⟨first, known⟩ := List.forall_mem_cons.mp known
    cases found : builder.position? name with
    | none => exact absurd first (position?_eq_none_iff.mp found)
    | some position =>
      rw [List.foldlM_cons, orderAfter, found, List.filterMap_cons, found]
      exact ih known _

theorem orderEntry_of_known {entry : Rule ν ω α × List String} (known : ∀ name ∈ entry.2, builder.Knows name)
    (order : DependencyOrder Nat) :
    builder.orderEntry order (entry, count) =
      .ok ((order.addElement count).addDependencies count (entry.2.filterMap builder.position?)) :=
  orderAfter_of_known entry.1 known _

theorem orderEntry_of_unknown {rule : Rule ν ω α} {known rest : List String}
    (earlier : ∀ name ∈ known, builder.Knows name) (unknown : ¬ builder.Knows name) (order : DependencyOrder Nat) :
    builder.orderEntry order ((rule, known ++ name :: rest), count) =
      .error (.unknownRuleDependency rule.name name) := by
  rw [orderEntry, List.foldlM_append, orderAfter_of_known rule earlier]
  simp only [bind, Except.bind, List.foldlM_cons, orderAfter, position?_eq_none_iff.mpr unknown]

theorem Registered.entry {order : DependencyOrder Nat} {entry : Rule ν ω α × List String}
    (registered : builder.Registered count order) (found : builder.entries[count]? = some entry) :
    builder.Registered (count + 1)
      ((order.addElement count).addDependencies count (entry.2.filterMap builder.position?)) := by
  have present : count ∈ (order.addElement count).elements := DependencyOrder.mem_addElement.mpr (.inr rfl)
  have positions : ∀ dependency, dependency ∈ entry.2.filterMap builder.position? ↔
      builder.DependsOn count dependency := by
    simp [DependsOn, found, position?_eq_some_iff]
  refine ⟨fun position lower => ?_, fun position member => ?_, fun position dependency => ?_⟩
  · rw [DependencyOrder.mem_addDependencies _ present, DependencyOrder.mem_addElement]
    rcases Nat.lt_succ_iff_lt_or_eq.mp lower with old | rfl
    · exact .inl (.inl (registered.listed position old))
    · exact .inl (.inr rfl)
  · rw [DependencyOrder.mem_addDependencies _ present, DependencyOrder.mem_addElement, positions] at member
    rcases member with (old | rfl) | ⟨_, _, _, _, refers⟩
    · exact registered.among position old
    · exact (List.getElem?_eq_some_iff.mp found).1
    · exact refers.lt_length
  · rw [DependencyOrder.DependsOn, DependencyOrder.mem_dependenciesOf_addDependencies,
      DependencyOrder.dependenciesOf_addElement, positions, Nat.lt_succ_iff_lt_or_eq, or_and_right]
    refine or_congr (registered.depends position dependency) ?_
    constructor
    · rintro ⟨rfl, depends⟩
      exact ⟨rfl, depends⟩
    · rintro ⟨rfl, depends⟩
      exact ⟨rfl, depends⟩

theorem registered_before {before after : List (Rule ν ω α × List String)}
    (split : builder.entries = before ++ after)
    (known : ∀ entry ∈ before, ∀ name ∈ entry.2, builder.Knows name) :
    ∃ order, before.zipIdx.foldlM builder.orderEntry .empty = .ok order ∧
      builder.Registered before.length order := by
  induction before using List.reverseRecOn generalizing after with
  | nil =>
    refine ⟨.empty, rfl, ⟨?_, List.forall_mem_nil _, ?_⟩⟩
    · exact fun position lower => absurd lower (Nat.not_lt_zero position)
    · simp [DependencyOrder.DependsOn, DependencyOrder.empty, DependencyOrder.dependenciesOf]
  | append_singleton before entry ih =>
    rw [List.append_assoc] at split
    obtain ⟨order, earlier, registered⟩ := ih split fun other member => known other (List.mem_append_left _ member)
    have found : builder.entries[before.length]? = some entry := by simp [split]
    refine ⟨_, ?_, by simpa using registered.entry found⟩
    simp only [List.zipIdx_append, List.foldlM_append, earlier, bind, Except.bind, List.zipIdx_singleton,
      List.foldlM_cons, List.foldlM_nil, Nat.zero_add, pure, Except.pure,
      orderEntry_of_known (known entry (List.mem_append_right _ (List.mem_singleton_self _)))]

theorem dependencyOrder_of_resolved (resolved : builder.Resolved) :
    ∃ order, builder.dependencyOrder = .ok order ∧ order.elements.Perm (List.range builder.entries.length) ∧
      order.DependsOn = builder.DependsOn := by
  obtain ⟨order, found, registered⟩ := registered_before (List.append_nil _).symm resolved
  refine ⟨order, found, ?_, ?_⟩
  · refine (List.perm_ext_iff_of_nodup order.nodup_elements List.nodup_range).mpr fun position => ?_
    rw [List.mem_range]
    exact ⟨registered.among position, registered.listed position⟩
  · funext position dependency
    refine propext ((registered.depends position dependency).trans (and_iff_right_of_imp ?_))
    rintro ⟨entry, found, -⟩
    exact (List.getElem?_eq_some_iff.mp found).1

theorem dependencyOrder_of_firstUnknown {rule : Rule ν ω α} (first : builder.FirstUnknown rule name) :
    builder.dependencyOrder = .error (.unknownRuleDependency rule.name name) := by
  obtain ⟨before, known, rest, after, split, resolved, earlier, unknown⟩ := first
  obtain ⟨order, found, -⟩ := registered_before split resolved
  rw [dependencyOrder, split, List.zipIdx_append, List.foldlM_append, found]
  simp only [bind, Except.bind, List.zipIdx_cons, List.foldlM_cons, orderEntry_of_unknown earlier unknown]

/-- Each slot is emptied once, so that no rule is missing when its turn comes. -/
theorem takeInOrder_ok {positions : List Nat} {slots : List (Option (Rule ν ω α))} (distinct : positions.Nodup)
    (full : ∀ position ∈ positions, ∃ rule, slots[position]? = some (some rule)) :
    ∃ rules, takeInOrder positions slots = .ok rules ∧
      rules.map some = positions.map fun position => slots[position]?.join := by
  induction positions generalizing slots with
  | nil => exact ⟨[], rfl, rfl⟩
  | cons position rest ih =>
    obtain ⟨outside, distinct⟩ := List.nodup_cons.mp distinct
    obtain ⟨⟨rule, found⟩, full⟩ := List.forall_mem_cons.mp full
    have kept : ∀ other ∈ rest, (slots.set position none)[other]? = slots[other]? := fun other member =>
      List.getElem?_set_ne (ne_of_mem_of_not_mem member outside).symm
    obtain ⟨rules, others, taken⟩ := ih distinct fun other member => (kept other member).symm ▸ full other member
    refine ⟨rule :: rules, ?_, ?_⟩
    · rw [takeInOrder, found, Option.join_some, others]
      rfl
    · rw [List.map_cons, List.map_cons, taken, found, Option.join_some]
      exact congrArg _ (List.map_congr_left fun other member => by rw [kept other member])

theorem takeInOrder_added {positions : List Nat}
    (permuted : positions.Perm (List.range builder.entries.length)) :
    ∃ rules, takeInOrder positions (builder.entries.map fun entry => some entry.1) = .ok rules ∧
      rules.map some = positions.map (builder.added[·]?) ∧ rules.Perm builder.added := by
  have full : ∀ position ∈ positions, ∃ rule,
      (builder.entries.map fun entry => some entry.1)[position]? = some (some rule) := by
    intro position member
    have bound := List.mem_range.mp (permuted.mem_iff.mp member)
    exact ⟨builder.entries[position].1, by simp [bound]⟩
  obtain ⟨rules, taken, each⟩ := takeInOrder_ok (permuted.nodup_iff.mpr List.nodup_range) full
  have slots : ∀ position : Nat, (builder.entries.map fun entry => some entry.1)[position]?.join =
      builder.added[position]? := by
    intro position
    rw [added, List.getElem?_map, List.getElem?_map]
    cases builder.entries[position]? <;> rfl
  simp only [slots] at each
  have all : (List.range builder.entries.length).map (builder.added[·]?) = builder.added.map some := by
    refine List.ext_getElem (by simp [added]) fun position bound _ => ?_
    simp only [List.length_map, List.length_range] at bound
    simp [added, bound]
  refine ⟨rules, taken, each, (List.map_perm_map_iff (Option.some_injective _)).mp ?_⟩
  rw [each, ← all]
  exact permuted.map _

theorem addedInOrder_of_lower (resolved : builder.Resolved)
    (lower : ∀ position dependency, builder.DependsOn position dependency → dependency < position) :
    builder.AddedInOrder := by
  intro entry member name among
  have found : builder.entries[entry.2]? = some entry.1 := List.mem_zipIdx_iff_getElem?.mp member
  cases refers : builder.position? name with
  | none => exact absurd (resolved entry.1 (List.mem_of_getElem? found) name among) (position?_eq_none_iff.mp refers)
  | some position =>
    exact ⟨position, lower entry.2 position ⟨entry.1, found, name, among, position?_eq_some_iff.mp refers⟩, rfl⟩

/-- The first dependency that names no rule is the error of a builder that has one, and the cycle that of
one whose dependencies close one. All other builders give their rules in an order of their positions in
which each comes after those it depends on, and in the order of addition if that is such an order. -/
theorem build_orders_by_dependencies (builder : RuleSetBuilder ν ω α) :
    (∃ rule name, builder.FirstUnknown rule name ∧
      builder.build = .error (.unknownRuleDependency rule.name name)) ∨
    (builder.Resolved ∧ (∃ position, Relation.TransGen builder.DependsOn position position) ∧
      builder.build = .error .cyclicRuleDependencies) ∨
    (builder.Resolved ∧ (¬ ∃ position, Relation.TransGen builder.DependsOn position position) ∧
      ∃ rules positions, builder.build = .ok ⟨rules⟩ ∧ rules.Perm builder.added ∧
        positions.Perm (List.range builder.entries.length) ∧
        rules.map some = positions.map (builder.added[·]?) ∧
        DependencyOrder.Arranged builder.DependsOn [] positions ∧
        ((∀ position dependency, builder.DependsOn position dependency → dependency < position) →
          rules = builder.added)) := by
  rcases builder.resolved_or_firstUnknown with resolved | ⟨rule, name, first⟩
  case inr => exact .inl ⟨rule, name, first, by rw [build_eq, dependencyOrder_of_firstUnknown first]; rfl⟩
  obtain ⟨order, found, permuted, depends⟩ := dependencyOrder_of_resolved resolved
  refine .inr ?_
  cases sorted : order.topologicalOrder? with
  | none =>
    have cycle := DependencyOrder.topologicalOrder?_eq_none_iff.mp sorted
    exact .inl ⟨resolved, depends ▸ cycle, by rw [build_eq, found]; simp only [Except.bind, sorted]⟩
  | some positions =>
    have acyclic : ¬ ∃ position, Relation.TransGen order.DependsOn position position := by
      rw [← DependencyOrder.topologicalOrder?_eq_none_iff, sorted]
      exact Option.some_ne_none positions
    obtain ⟨arranged, rearranged⟩ := DependencyOrder.topologicalOrder?_arranged sorted
    obtain ⟨rules, taken, each, whole⟩ := takeInOrder_added (rearranged.trans permuted)
    have built : builder.build = .ok ⟨rules⟩ := by
      rw [build_eq, found]
      simp only [Except.bind, sorted, taken]
      rfl
    refine .inr ⟨resolved, depends ▸ acyclic, rules, positions, built, whole, rearranged.trans permuted, each,
      depends ▸ arranged, fun lower => ?_⟩
    have inOrder := build_of_addedInOrder builder (addedInOrder_of_lower resolved lower)
    exact congrArg RuleSet.rules (Except.ok.inj (built.symm.trans inOrder))

end QueryOptimizer.RuleSetBuilder
