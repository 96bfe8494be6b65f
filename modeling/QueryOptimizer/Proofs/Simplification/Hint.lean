import QueryOptimizer.Proofs.Pattern
import QueryOptimizer.Proofs.Simplification.Driving
import QueryOptimizer.Simplification.Computation

/-!
Hints about the kind of node that a rule matches. A hint that agrees with the pattern only spares the search for
matches that are not there: without it, every node has the same applications.
-/
namespace QueryOptimizer
variable {ν ω : Type}

namespace Rule
variable {α β : Type}

/-- The rule without its hint: it may apply to nodes of any kind. -/
def unhinted (rule : Rule ν ω α) : Rule ν ω α :=
  { rule with rootOperator? := none }

/-- The pattern has no match on nodes of another kind than the one that the rule hints at. -/
def Faithful [Tree ν ω] [DecidableEq ω] (rule : Rule ν ω α) : Prop :=
  ∀ kind, rule.rootOperator? = some kind → ∀ node : ν, Tree.operator node ≠ kind →
    rule.pattern.allMatches .empty node = []

variable [Tree ν ω] [DecidableEq ω]

/-- A hint is faithful that repeats what the pattern asks for. -/
theorem faithful_of_kind? {rule : Rule ν ω α} (asked : rule.rootOperator? = rule.pattern.kind?) : rule.Faithful :=
  fun _ hinted _ different => Pattern.allMatches_eq_nil_of_kind? (asked ▸ hinted) different

theorem faithful_of_none {rule : Rule ν ω α} (unhinted : rule.rootOperator? = none) : rule.Faithful := by
  intro kind hinted
  rw [unhinted] at hinted
  cases hinted

end Rule

/-- The setting with all hints of its rules deleted. -/
def Setting.unhinted {α : Type} (setting : Setting ν ω α) : Setting ν ω α :=
  { setting with rules := setting.rules.map Rule.unhinted }

variable {σ : Type} [Tree ν ω]

/-- A call does not depend on the hint of the rule. -/
theorem callRule_unhinted (environment : Environment) (rule : SimplificationRule ν ω σ) :
    callRule environment rule.unhinted = callRule environment rule :=
  rfl

theorem firstReplacement_unhinted (environment : Environment) (root current : ν)
    (pending : List (SimplificationRule ν ω σ × Bindings ν)) :
    firstReplacement environment root current
        (pending.map fun application => (application.1.unhinted, application.2)) =
      firstReplacement environment root current pending := by
  induction pending with
  | nil => rfl
  | cons application rest ih =>
    simp only [List.map_cons, firstReplacement, ih, callRule_unhinted]
    rfl

variable [DecidableEq ω]

/-- A rule that a faithful hint excludes has no match. -/
theorem applications_unhinted {α : Type} {rules : RuleSet ν ω α} (faithful : ∀ rule ∈ rules.rules, rule.Faithful)
    (node : ν) :
    applications (rules.map Rule.unhinted) node =
      (applications rules node).map fun application => (application.1.unhinted, application.2) := by
  obtain ⟨rules⟩ := rules
  induction rules with
  | nil => rfl
  | cons rule rest ih =>
    have others := ih fun other member => faithful other (List.mem_cons_of_mem _ member)
    simp only [applications, RuleSet.candidates, RuleSet.map, List.map_cons, List.filter_cons] at others ⊢
    have kept : (rule.unhinted.rootOperator?.all fun kind => kind = Tree.operator node) = true := rfl
    by_cases offered : (rule.rootOperator?.all fun kind => kind = Tree.operator node) = true
    · simp only [kept, offered, if_true, List.flatMap_cons, List.map_append, others, List.map_map]
      rfl
    · obtain ⟨kind, hinted, different⟩ : ∃ kind, rule.rootOperator? = some kind ∧ Tree.operator node ≠ kind := by
        cases hinted : rule.rootOperator? with
        | none => simp [hinted] at offered
        | some kind => exact ⟨kind, rfl, fun same => offered (by simp [hinted, same])⟩
      have nothing : rule.unhinted.pattern.allMatches .empty node = [] :=
        faithful rule (List.mem_cons_self ..) kind hinted node different
      simp only [kept, offered, if_true, Bool.false_eq_true, if_false, List.flatMap_cons, nothing, List.map_nil,
        List.nil_append, others]

section Drivers
variable {setting : Setting ν ω (Call ν → RuleM σ (Response ν))}
variable (faithful : ∀ rule ∈ setting.rules.rules, rule.Faithful)
include faithful

theorem replaceThen_unhinted (root : ν) (outermost : Bool) (next : ν → Run ν σ (Outcome ν)) (current : ν) :
    replaceThen setting.environment setting.unhinted.rules root outermost next current =
      replaceThen setting.environment setting.rules root outermost next current := by
  simp only [replaceThen, Setting.unhinted, applications_unhinted faithful, firstReplacement_unhinted]

theorem replaceRepeatedly_unhinted (root : ν) (outermost : Bool) (steps : Nat) :
    replaceRepeatedly setting.environment setting.unhinted.rules root outermost steps =
      replaceRepeatedly setting.environment setting.rules root outermost steps := by
  induction steps with
  | zero => exact funext (replaceThen_unhinted faithful root outermost _)
  | succ steps ih =>
    simp only [replaceRepeatedly, ih]
    exact funext (replaceThen_unhinted faithful root outermost _)

theorem fixpoint_unhinted : fixpoint setting.unhinted = fixpoint setting := by
  funext root current
  exact congrFun (replaceRepeatedly_unhinted faithful root _ _) current

/-- The alternatives of a node are those it has with hints, in the same order. -/
theorem simplifyCurrent_unhinted :
    simplifyCurrent setting.environment setting.unhinted.rules =
      simplifyCurrent setting.environment setting.rules := by
  funext current
  unfold simplifyCurrent
  simp only [Setting.unhinted, applications_unhinted faithful, List.mapM_map]
  rfl

end Drivers

/-- Computing rules are faithful together with the rules that record what they compute. -/
theorem compute_unhinted {A ρ : Type} {setting : Setting ν ω (ComputationCall ν A ρ → RuleM σ (Response (ν × ρ)))}
    (faithful : ∀ rule ∈ setting.rules.rules, rule.Faithful) (argument : A) :
    compute setting.unhinted argument = compute setting argument := by
  let recording : Setting ν ω (Call ν → RuleM (ComputationState ν σ ρ) (Response ν)) :=
    { setting with rules := setting.rules.map (ComputationRule.recording argument) }
  have recordingFaithful : ∀ rule ∈ recording.rules.rules, rule.Faithful := by
    intro rule member
    obtain ⟨computing, computes, rfl⟩ := List.mem_map.mp member
    exact faithful computing computes
  have swapped : { setting.unhinted with
      rules := setting.unhinted.rules.map (ComputationRule.recording argument) } = recording.unhinted := by
    simp only [recording, Setting.unhinted, RuleSet.map, List.map_map]
    rfl
  funext root session
  simp only [compute, swapped, simplify_of_fixpoint (fixpoint_unhinted recordingFaithful)]
  rfl

end QueryOptimizer
