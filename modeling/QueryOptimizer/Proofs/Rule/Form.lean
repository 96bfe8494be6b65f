import Mathlib
import QueryOptimizer.Proofs.Pattern
import QueryOptimizer.Proofs.Rule.Conformance

/-!
Structural equality of nodes, as equality of their forms: of what is left of them without identities. Patterns that
test for nothing else match nodes of one form in the same ways, and rules may promise to replace them by nodes of
one form.
-/
namespace QueryOptimizer
variable {ν ω σ φ : Type}

/-- Lists that are the same through views of their elements are so through views of what the elements contribute. -/
theorem map_flatMap_congr {α β γ δ ε : Type} {one : α → γ} {other : β → γ} {view : δ → ε} {left : α → List δ}
    {right : β → List δ} {lefts : List α} {rights : List β} (same : lefts.map one = rights.map other)
    (each : ∀ first second, one first = other second → (left first).map view = (right second).map view) :
    (lefts.flatMap left).map view = (rights.flatMap right).map view := by
  induction lefts generalizing rights with
  | nil =>
    obtain rfl : rights = [] := List.map_eq_nil_iff.mp same.symm
    rfl
  | cons first rest ih =>
    cases rights with
    | nil => cases same
    | cons second others =>
      obtain ⟨head, tail⟩ := List.cons.inj same
      rw [List.flatMap_cons, List.flatMap_cons, List.map_append, List.map_append, each first second head, ih tail]

/-- What is bound under each key, but for identities. -/
def Bindings.forms (form : ν → φ) (bindings : Bindings ν) : List (String × φ) :=
  bindings.bound.map fun entry => (entry.1, form entry.2)

theorem Bindings.forms_bindOptional {form : ν → φ} {outer twin : Bindings ν} (key? : Option String) {one other : ν}
    (bound : outer.forms form = twin.forms form) (same : form one = form other) :
    (outer.bindOptional key? one).forms form = (twin.bindOptional key? other).forms form := by
  cases key? with
  | none => exact bound
  | some key =>
    show (outer.bound ++ [(key, one)]).map _ = (twin.bound ++ [(key, other)]).map _
    rw [List.map_append, List.map_append]
    exact congrArg₂ _ bound (by simp only [List.map_cons, List.map_nil, same])

variable [Tree ν ω]

/-- What is required of forms for equality of forms to be structural equality: nodes of one form are of one kind,
over children of one form each, and the form of a copy comes from those of its children. -/
structure Structural (form : ν → φ) : Prop where
  operator : ∀ one other, form one = form other → Tree.operator one = Tree.operator other
  children : ∀ one other, form one = form other → (Tree.children one).map form = (Tree.children other).map form
  copied : ∀ node mapped others id otherId, mapped.length = (Tree.children node).length →
    mapped.map form = others.map form → form (Tree.copyOver node mapped id) = form (Tree.copyOver node others otherId)
  recopied : ∀ node id, form (Tree.copyOver node (Tree.children node) id) = form node

namespace Pattern
variable [DecidableEq ω]

mutual

/-- The tests of the pattern cannot tell apart nodes of one form. -/
def Respects (form : ν → φ) : Pattern ν ω → Prop
  | .any _ | .operator _ _ => True
  | .filter _ test _ => ∀ one other, form one = form other → test one = test other
  | .exactly _ _ patterns => RespectsEach form patterns
  | .allChildren _ _ pattern | .someChild _ _ pattern => Respects form pattern

def RespectsEach (form : ν → φ) : List (Pattern ν ω) → Prop
  | [] => True
  | pattern :: patterns => Respects form pattern ∧ RespectsEach form patterns

end

variable {form : ν → φ}

omit [Tree ν ω] [DecidableEq ω] in
/-- A test that the forms of nodes pass as the nodes do cannot tell apart nodes of one form. -/
theorem respects_filter {form : ν → ν} {description : String} {test : ν → Bool} {key? : Option String}
    (same : ∀ node, test (form node) = test node) : (filter description test key? : Pattern ν ω).Respects form :=
  fun one other alike => (same one).symm.trans ((congrArg test alike).trans (same other))

/-- If nodes of one form match a pattern in the same ways, then so do lists of such nodes. -/
theorem extendOver_allMatches_forms {pattern : Pattern ν ω}
    (matched : ∀ (outer twin : Bindings ν) (one other : ν), outer.forms form = twin.forms form → form one = form other →
      (pattern.allMatches outer one).map (Bindings.forms form) =
        (pattern.allMatches twin other).map (Bindings.forms form))
    {nodes others : List ν} (same : nodes.map form = others.map form) {found twins : List (Bindings ν)}
    (bound : found.map (Bindings.forms form) = twins.map (Bindings.forms form)) :
    (extendOver (fun outer child => pattern.allMatches outer child) nodes found).map (Bindings.forms form) =
      (extendOver (fun outer child => pattern.allMatches outer child) others twins).map
        (Bindings.forms form) := by
  induction nodes generalizing others found twins with
  | nil =>
    obtain rfl : others = [] := List.map_eq_nil_iff.mp same.symm
    exact bound
  | cons node rest ih =>
    cases others with
    | nil => cases same
    | cons other others =>
      obtain ⟨head, tail⟩ := List.cons.inj same
      rw [extendOver_cons, extendOver_cons]
      exact ih tail (map_flatMap_congr bound fun outer twin alike => matched outer twin node other alike head)

mutual

/-- Nodes of one form are matched in the same ways. -/
theorem allMatches_forms (structural : Structural form) (pattern : Pattern ν ω) (respects : pattern.Respects form)
    {outer twin : Bindings ν} {one other : ν} (bound : outer.forms form = twin.forms form)
    (same : form one = form other) :
    (pattern.allMatches outer one).map (Bindings.forms form) =
      (pattern.allMatches twin other).map (Bindings.forms form) := by
  have kinds := structural.operator one other same
  have offspring := structural.children one other same
  cases pattern with
  | any key? =>
    simp only [allMatches, List.map_cons, List.map_nil, Bindings.forms_bindOptional key? bound same]
  | filter description test key? =>
    simp only [allMatches, respects one other same]
    split
    · simp only [List.map_cons, List.map_nil, Bindings.forms_bindOptional key? bound same]
    · rfl
  | operator kind key? =>
    simp only [allMatches, kinds]
    split
    · simp only [List.map_cons, List.map_nil, Bindings.forms_bindOptional key? bound same]
    · rfl
  | exactly kind key? patterns =>
    have sizes : (Tree.children one).length = (Tree.children other).length := by
      rw [← List.length_map form, offspring, List.length_map]
    simp only [allMatches, kinds, sizes]
    split
    · refine matchEach_forms structural patterns respects offspring ?_
      simp only [List.map_cons, List.map_nil, Bindings.forms_bindOptional key? bound same]
    · rfl
  | allChildren kind key? pattern =>
    simp only [allMatches, kinds]
    split
    · refine extendOver_allMatches_forms (fun outer twin _ _ alike => ?_) offspring ?_
      · exact allMatches_forms structural pattern respects alike
      · simp only [List.map_cons, List.map_nil, Bindings.forms_bindOptional key? bound same]
    · rfl
  | someChild kind key? pattern =>
    simp only [allMatches, kinds]
    split
    · refine map_flatMap_congr offspring fun first second alike => ?_
      exact allMatches_forms structural pattern respects (Bindings.forms_bindOptional key? bound same) alike
    · rfl

theorem matchEach_forms (structural : Structural form) (patterns : List (Pattern ν ω))
    (respects : RespectsEach form patterns) {nodes others : List ν} {found twins : List (Bindings ν)}
    (same : nodes.map form = others.map form)
    (bound : found.map (Bindings.forms form) = twins.map (Bindings.forms form)) :
    (matchEach patterns nodes found).map (Bindings.forms form) =
      (matchEach patterns others twins).map (Bindings.forms form) := by
  cases patterns with
  | nil => simpa only [matchEach_nil] using bound
  | cons pattern patterns =>
    cases nodes with
    | nil =>
      obtain rfl : others = [] := List.map_eq_nil_iff.mp same.symm
      simpa only [matchEach] using bound
    | cons node nodes =>
      cases others with
      | nil => cases same
      | cons other others =>
        obtain ⟨head, tail⟩ := List.cons.inj same
        rw [matchEach_cons, matchEach_cons]
        refine matchEach_forms structural patterns respects.2 tail (map_flatMap_congr bound fun outer twin alike => ?_)
        exact allMatches_forms structural pattern respects.1 alike head

end

end Pattern

variable [DecidableEq ω]

/-- The rule never fails and never asks for re-exploration, and it yields one node at most. What it yields in place
of the current node is of the form that `answer` gives, on nothing but the forms of the current node and of what is
bound; yielding nothing is no different from yielding the current node. -/
def AnswersBy (settled : Set ν → Session σ → Prop) (environment : Environment) (form : ν → φ)
    (rule : SimplificationRule ν ω σ) (answer : φ → List (String × φ) → Option φ) : Prop :=
  ∀ nodes call session, CalledIn settled environment rule nodes call session →
    Returns (rule.action call) session fun response _ =>
      response.reExplore = false ∧ ∃ node? : Option ν, response.results = node?.toList ∧
        (node?.filter fun node => !sameNode node call.current).map form =
          answer (form call.current) (call.bindings.forms form)

/-- The rule never fails and never asks for re-exploration, and it yields one node or none: a node of the form that
`answer` gives, if it gives one. -/
def Replies (settled : Set ν → Session σ → Prop) (environment : Environment) (form : ν → φ)
    (rule : SimplificationRule ν ω σ) (answer : φ → List (String × φ) → Option φ) : Prop :=
  ∀ nodes call session, CalledIn settled environment rule nodes call session →
    Returns (rule.action call) session fun response _ =>
      response.reExplore = false ∧
        response.results.map form = (answer (form call.current) (call.bindings.forms form)).toList

namespace Replies
variable {settled : Set ν → Session σ → Prop} {environment : Environment} {form : ν → φ}
variable {rule : SimplificationRule ν ω σ} {answer : φ → List (String × φ) → Option φ}
variable (replies : Replies settled environment form rule answer)
include replies

theorem alike : Alike settled environment rule := by
  have counted {nodes : Set ν} {call : Call ν} {session : Session σ}
      (called : CalledIn settled environment rule nodes call session) :
      Answering (rule.action call) session
        (answer (form call.current) (call.bindings.forms form)).toList.length := by
    refine (replies nodes call session called).imp ?_
    rintro response after ⟨-, yielded⟩
    rw [← yielded, List.length_map]
  intro nodes others call twin session later called twinCalled sameCurrent sameBindings
  have twinCounted := counted twinCalled
  rw [sameCurrent, sameBindings] at twinCounted
  exact ⟨_, counted called, twinCounted⟩

theorem answersBy (replacing : Replacing settled environment rule) :
    AnswersBy settled environment form rule answer := by
  intro nodes call session called
  refine ((replies nodes call session called).and (replacing nodes call session called)).mono ?_
    fun _ _ stopped => stopped.1
  rintro response after ⟨⟨quiet, yielded⟩, different⟩
  cases answered : answer (form call.current) (call.bindings.forms form) with
  | none =>
    rw [answered] at yielded
    exact ⟨quiet, none, List.map_eq_nil_iff.mp yielded, rfl⟩
  | some replacement =>
    rw [answered] at yielded
    obtain ⟨node, single, rfl⟩ := List.map_eq_singleton_iff.mp yielded
    have other : sameNode node call.current = false := by simpa using different node (by simp [single])
    exact ⟨quiet, some node, single, by rw [Option.filter_some, other]; rfl⟩

end Replies

/-- Nodes of one form have the same rules applied to them, with bindings of the same forms. -/
theorem applications_forms {α : Type} {form : ν → φ} (structural : Structural form) {rules : RuleSet ν ω α}
    (respects : ∀ rule ∈ rules.rules, rule.pattern.Respects form) {one other : ν} (same : form one = form other) :
    (applications rules one).map (fun application => (application.1, application.2.forms form)) =
      (applications rules other).map fun application => (application.1, application.2.forms form) := by
  have candidates : rules.candidates (Tree.operator one) = rules.candidates (Tree.operator other) := by
    rw [structural.operator one other same]
  have listed : ∀ rule ∈ rules.candidates (Tree.operator other), rule.pattern.Respects form :=
    fun rule member => respects rule (List.mem_filter.mp member).1
  unfold applications
  rw [candidates]
  generalize rules.candidates (Tree.operator other) = tried at listed
  induction tried with
  | nil => rfl
  | cons rule rest ih =>
    have matched : (rule.pattern.allMatches .empty one).map (Bindings.forms form) =
        (rule.pattern.allMatches .empty other).map (Bindings.forms form) :=
      Pattern.allMatches_forms structural rule.pattern (listed rule (by simp)) rfl same
    have paired (found : List (Bindings ν)) :
        (found.map fun bindings => (rule, bindings)).map
            (fun application => (application.1, application.2.forms form)) =
          (found.map (Bindings.forms form)).map (rule, ·) := by
      rw [List.map_map, List.map_map]
      rfl
    rw [List.flatMap_cons, List.flatMap_cons, List.map_append, List.map_append, paired, paired, matched,
      ih fun other member => listed other (by simp [member])]

end QueryOptimizer
