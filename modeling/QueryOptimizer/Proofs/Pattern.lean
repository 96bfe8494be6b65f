import QueryOptimizer.Rule.Basic

/-!
What a match says about the node that was matched, for the patterns that rules are written with, and which
nodes a pattern cannot match.
-/
namespace QueryOptimizer

theorem Bindings.get?_bind_same {ν : Type} (bindings : Bindings ν) {key : String} {node : ν}
    (unbound : bindings.get? key = none) : (bindings.bind key node).get? key = some node := by
  have absent : bindings.getAll key = [] := List.head?_eq_none_iff.mp unbound
  have appended : (bindings.bind key node).getAll key = bindings.getAll key ++ [node] := by
    simp [getAll, bind]
  rw [get?, appended, absent]
  rfl

theorem Bindings.get?_bind_other {ν : Type} (bindings : Bindings ν) {key other : String} {node : ν}
    (different : other ≠ key) : (bindings.bind other node).get? key = bindings.get? key := by
  simp [get?, getAll, bind, different]

theorem Call.get_of_bound {ν : Type} {m : Type → Type} [Pure m] [MonadRaise m] {call : Call ν} {key : String}
    {node : ν} (bound : call.bindings.get? key = some node) : (call.get key : m ν) = pure node := by
  rw [get, bound]

namespace Pattern
variable {ν ω : Type} [Tree ν ω] [DecidableEq ω]
variable {outer bindings : Bindings ν} {node : ν} {kind : ω} {key? : Option String}

theorem mem_allMatches_any :
    bindings ∈ (any key? : Pattern ν ω).allMatches outer node ↔ bindings = outer.bindOptional key? node := by
  simp [allMatches]

theorem mem_allMatches_filter {description : String} {test : ν → Bool} :
    bindings ∈ (filter description test key?).allMatches outer node ↔
      test node = true ∧ bindings = outer.bindOptional key? node := by
  simp [allMatches]

theorem mem_allMatches_operator :
    bindings ∈ (operator kind key?).allMatches outer node ↔
      Tree.operator node = kind ∧ bindings = outer.bindOptional key? node := by
  simp [allMatches]

/-- Stopping where nothing is left to extend changes nothing. -/
theorem extendOver_cons (extensions : Bindings ν → ν → List (Bindings ν)) (node : ν) (nodes : List ν)
    (found : List (Bindings ν)) :
    extendOver extensions (node :: nodes) found =
      extendOver extensions nodes (found.flatMap fun bindings => extensions bindings node) := by
  have none (nodes : List ν) : extendOver extensions nodes [] = [] := by
    cases nodes <;> rfl
  rw [extendOver]
  split
  · rename_i empty
    rw [List.isEmpty_iff.mp empty, none]
  · rfl

theorem matchEach_nil (nodes : List ν) (found : List (Bindings ν)) :
    matchEach ([] : List (Pattern ν ω)) nodes found = found := by
  simp only [matchEach]

theorem matchEach_cons (pattern : Pattern ν ω) (patterns : List (Pattern ν ω)) (node : ν) (nodes : List ν)
    (found : List (Bindings ν)) :
    matchEach (pattern :: patterns) (node :: nodes) found =
      matchEach patterns nodes (found.flatMap fun bindings => pattern.allMatches bindings node) := by
  have none (patterns : List (Pattern ν ω)) (nodes : List ν) : matchEach patterns nodes [] = [] := by
    cases patterns <;> cases nodes <;> simp [matchEach]
  rw [matchEach]
  split
  · rename_i empty
    rw [List.isEmpty_iff.mp empty, none]
  · rfl

/-- A pattern for a node with one child matches where its pattern for the child does. -/
theorem mem_allMatches_exactly_one {pattern : Pattern ν ω} :
    bindings ∈ (exactly kind key? [pattern]).allMatches outer node ↔
      Tree.operator node = kind ∧ ∃ child, Tree.children node = [child] ∧
        bindings ∈ pattern.allMatches (outer.bindOptional key? node) child := by
  rw [allMatches]
  constructor
  · intro matched
    split at matched
    · rename_i shape
      obtain ⟨child, single⟩ := List.length_eq_one_iff.mp shape.2.symm
      refine ⟨shape.1, child, single, ?_⟩
      simpa [single, matchEach_cons, matchEach_nil] using matched
    · simp at matched
  · intro found
    obtain ⟨same, child, single, matched⟩ := found
    simpa [same, single, matchEach_cons, matchEach_nil] using matched

/-- The kind of node that a pattern asks for by name. -/
def kind? : Pattern ν ω → Option ω
  | .any _ | .filter _ _ _ => none
  | .operator kind _ | .exactly kind _ _ | .allChildren kind _ _ | .someChild kind _ _ => some kind

theorem allMatches_eq_nil_of_kind? {pattern : Pattern ν ω} (asked : pattern.kind? = some kind)
    (different : Tree.operator node ≠ kind) : pattern.allMatches outer node = [] := by
  cases pattern with
  | any key? => cases asked
  | filter description test key? => cases asked
  | operator asks key? | exactly asks key? patterns | allChildren asks key? child | someChild asks key? child =>
    obtain rfl : asks = kind := Option.some.inj asked
    simp only [allMatches, different, false_and, if_false]

end Pattern
end QueryOptimizer
