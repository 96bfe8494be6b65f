import QueryOptimizer.Simplification.Ledger

/-!
Driving one node to a fixpoint: the first rule that replaces the node wins, and the scan starts over
from the first rule on the replacement.
-/
namespace QueryOptimizer
variable {ν ω σ : Type} [Tree ν ω] [DecidableEq ω]

/-- Every rule that may apply to `node`, with every match of its pattern, in the order of trial. -/
def applications (rules : RuleSet ν ω α) (node : ν) : List (Rule ν ω α × Bindings ν) :=
  (rules.candidates (Tree.operator node)).flatMap fun rule =>
    (rule.pattern.allMatches .empty node).map fun bindings => (rule, bindings)

/-- What driving a node to a fixpoint came to, and the rule that cut it short by asking for its
replacement to be explored again. -/
structure Outcome (ν : Type) where
  node : ν
  reExploredBy : Option String

/-- Tries the applications in turn until one replaces `current` by another node. -/
def firstReplacement (environment : Environment) (root current : ν) :
    List (SimplificationRule ν ω σ × Bindings ν) → Run ν σ (Option (String × Yielded ν))
  | [] => return none
  | (rule, bindings) :: rest => do
    match ← callRule environment rule root current bindings with
    | none => firstReplacement environment root current rest
    | some yielded =>
      if sameNode yielded.node current then firstReplacement environment root current rest
      else return some (rule.name, yielded)

/-- Replaces `current` if a rule applies, and goes on with `next` unless the rule asks for
re-exploration. The outermost node is its own root, whatever it has become. -/
def replaceThen (environment : Environment) (rules : RuleSet ν ω (Call ν → RuleM σ (Response ν)))
    (root : ν) (outermost : Bool) (next : ν → Run ν σ (Outcome ν)) (current : ν) :
    Run ν σ (Outcome ν) := do
  let callRoot := if outermost then current else root
  match ← firstReplacement environment callRoot current (applications rules current) with
  | none => return ⟨current, none⟩
  | some (rule, yielded) =>
    if yielded.reExplore then return ⟨yielded.node, some rule⟩ else next yielded.node

/-- Replaces a node for as long as a rule applies, at most `steps` times in a row. -/
def replaceRepeatedly (environment : Environment) (rules : RuleSet ν ω (Call ν → RuleM σ (Response ν)))
    (root : ν) (outermost : Bool) : (steps : Nat) → ν → Run ν σ (Outcome ν)
  | 0 => replaceThen environment rules root outermost fun _ => throw .outOfSteps
  | steps + 1 =>
    replaceThen environment rules root outermost (replaceRepeatedly environment rules root outermost steps)

/-- Drives `current` to a fixpoint of the rules, as far as the setting's patience reaches. -/
def fixpoint (setting : Setting ν ω (Call ν → RuleM σ (Response ν))) (root current : ν) :
    Run ν σ (Outcome ν) :=
  replaceRepeatedly setting.environment setting.rules root (sameNode root current)
    (setting.patience current) current

end QueryOptimizer
