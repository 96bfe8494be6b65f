import QueryOptimizer.Proofs.Simplification.Call
import QueryOptimizer.Proofs.Simplification.Driving

/-!
Environments that rules cannot tell apart. What a run does depends on its environment through the calls of
rules alone, so that both drivers do the same in two environments if every rule does.
-/
namespace QueryOptimizer
variable {ν ω σ : Type} [Tree ν ω]

/-- Whatever the rule is called with, it does the same in both environments. -/
def Indifferent (one other : Environment) (rule : SimplificationRule ν ω σ) : Prop :=
  ∀ call : Call ν, rule.action { call with environment := one } = rule.action { call with environment := other }

variable {one other : Environment}

theorem callRule_indifferent {rule : SimplificationRule ν ω σ} (indifferent : Indifferent one other rule)
    (root current : ν) (bindings : Bindings ν) :
    callRule one rule root current bindings = callRule other rule root current bindings := by
  have same (constraints : Table ν Constraint) :=
    indifferent { rule := rule.name, root, current, bindings, environment := one, constraints }
  simp only [callRule, same]

theorem firstReplacement_indifferent (root current : ν) (pending : List (SimplificationRule ν ω σ × Bindings ν))
    (indifferent : ∀ application ∈ pending, Indifferent one other application.1) :
    firstReplacement one root current pending = firstReplacement other root current pending := by
  induction pending with
  | nil => rfl
  | cons application rest ih =>
    have first := callRule_indifferent (indifferent application (List.mem_cons_self ..)) root current application.2
    have others := ih fun later member => indifferent later (List.mem_cons_of_mem _ member)
    simp only [firstReplacement, first, others]

variable [DecidableEq ω] {rules : RuleSet ν ω (Call ν → RuleM σ (Response ν))}
  (indifferent : ∀ rule ∈ rules.rules, Indifferent one other rule)
include indifferent

theorem replaceThen_indifferent (root : ν) (outermost : Bool) (next : ν → Run ν σ (Outcome ν)) (current : ν) :
    replaceThen one rules root outermost next current = replaceThen other rules root outermost next current := by
  have scanned (callRoot : ν) := firstReplacement_indifferent callRoot current (applications rules current)
    fun application member => indifferent application.1 (mem_applications.mp member).1.1
  simp only [replaceThen, scanned]

theorem replaceRepeatedly_indifferent (root : ν) (outermost : Bool) (steps : Nat) :
    replaceRepeatedly one rules root outermost steps = replaceRepeatedly other rules root outermost steps := by
  induction steps with
  | zero => exact funext (replaceThen_indifferent indifferent root outermost _)
  | succ steps ih =>
    simp only [replaceRepeatedly, ih]
    exact funext (replaceThen_indifferent indifferent root outermost _)

variable (patience : ν → Nat)

theorem fixpoint_indifferent :
    fixpoint (⟨one, rules, patience⟩ : Setting ν ω _) = fixpoint ⟨other, rules, patience⟩ := by
  funext root current
  exact congrFun (replaceRepeatedly_indifferent indifferent root _ _) current

theorem simplify_indifferent :
    simplify (⟨one, rules, patience⟩ : Setting ν ω _) = simplify ⟨other, rules, patience⟩ :=
  simplify_of_fixpoint (fixpoint_indifferent indifferent patience)

theorem optimize_indifferent (limits : Limits) :
    optimize (⟨one, rules, patience⟩ : Setting ν ω _) limits = optimize ⟨other, rules, patience⟩ limits :=
  optimize_of_fixpoint (fixpoint_indifferent indifferent patience) limits

end QueryOptimizer
