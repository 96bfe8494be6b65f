import QueryOptimizer.Rule.Set

/-!
Builders whose rules are replaced one by one. If every rule keeps its name, the builder comes to the same: it
fails with the same error, or orders the new rules as it orders the old ones.
-/
namespace QueryOptimizer.RuleSetBuilder
variable {ν ω α β : Type}

/-- The builder with each rule replaced by what `f` makes of it, in the same order and after the same
dependencies. -/
def map (f : Rule ν ω α → Rule ν ω β) (builder : RuleSetBuilder ν ω α) : RuleSetBuilder ν ω β :=
  ⟨builder.entries.map fun entry => (f entry.1, entry.2)⟩

variable {f : Rule ν ω α → Rule ν ω β} (named : ∀ rule, (f rule).name = rule.name)

theorem build_eq (builder : RuleSetBuilder ν ω α) :
    builder.build = builder.dependencyOrder.bind fun order =>
      match order.topologicalOrder? with
      | none => .error .cyclicRuleDependencies
      | some positions =>
        (takeInOrder positions (builder.entries.map fun entry => some entry.1)).map RuleSet.mk := by
  unfold build
  cases builder.dependencyOrder with
  | error error => rfl
  | ok order => rfl

/-- Rules leave their slots in the same order, whatever they are. -/
theorem takeInOrder_map (f : Rule ν ω α → Rule ν ω β) (positions : List Nat) (slots : List (Option (Rule ν ω α))) :
    takeInOrder positions (slots.map (Option.map f)) = (takeInOrder positions slots).map (List.map f) := by
  induction positions generalizing slots with
  | nil => rfl
  | cons position rest ih =>
    have looked : (slots.map (Option.map f))[position]?.join = slots[position]?.join.map f := by
      rw [List.getElem?_map]
      cases slots[position]? with
      | none => rfl
      | some slot => rfl
    rw [takeInOrder, takeInOrder, looked]
    cases slots[position]?.join with
    | none => rfl
    | some rule =>
      have emptied : (slots.map (Option.map f)).set position none =
          (slots.set position none).map (Option.map f) := by
        rw [List.map_set, Option.map_none]
      dsimp only [Option.map_some]
      rw [emptied, ih]
      cases takeInOrder rest (slots.set position none) with
      | error error => rfl
      | ok rules => rfl

include named

theorem position?_map (builder : RuleSetBuilder ν ω α) (name : String) :
    (builder.map f).position? name = builder.position? name := by
  simp only [position?, map, List.findIdx?_map, Function.comp_def, named]

theorem orderEntry_map (builder : RuleSetBuilder ν ω α) (order : DependencyOrder Nat)
    (entry : Rule ν ω α × List String) (position : Nat) :
    (builder.map f).orderEntry order ((f entry.1, entry.2), position) =
      builder.orderEntry order (entry, position) := by
  have same : (builder.map f).orderAfter (f entry.1) position = builder.orderAfter entry.1 position := by
    funext order dependency
    rw [orderAfter, orderAfter, position?_map named, named]
  rw [orderEntry, orderEntry, same]

theorem dependencyOrder_map (builder : RuleSetBuilder ν ω α) :
    (builder.map f).dependencyOrder = builder.dependencyOrder := by
  suffices general : ∀ (entries : List (Rule ν ω α × List String)) (count : Nat) (order : DependencyOrder Nat),
      ((entries.map fun entry => (f entry.1, entry.2)).zipIdx count).foldlM (builder.map f).orderEntry order =
        (entries.zipIdx count).foldlM builder.orderEntry order from
    general builder.entries 0 .empty
  intro entries
  induction entries with
  | nil => exact fun _ _ => rfl
  | cons entry rest ih =>
    intro count order
    rw [List.map_cons, List.zipIdx_cons, List.zipIdx_cons, List.foldlM_cons, List.foldlM_cons,
      orderEntry_map named]
    congr 1
    funext middle
    exact ih (count + 1) middle

theorem build_map (builder : RuleSetBuilder ν ω α) :
    (builder.map f).build = builder.build.map (RuleSet.map f) := by
  have slots : ((builder.map f).entries.map fun entry => some entry.1) =
      (builder.entries.map fun entry => some entry.1).map (Option.map f) := by
    simp [map]
  rw [build_eq, build_eq, dependencyOrder_map named, slots]
  cases builder.dependencyOrder with
  | error error => rfl
  | ok order =>
    dsimp only [Except.bind]
    cases order.topologicalOrder? with
    | none => rfl
    | some positions =>
      dsimp only
      rw [takeInOrder_map]
      cases takeInOrder positions (builder.entries.map fun entry => some entry.1) with
      | error error => rfl
      | ok rules => rfl

end QueryOptimizer.RuleSetBuilder
