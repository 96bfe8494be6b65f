import QueryOptimizer.Rule.Set
import QueryOptimizer.Tree.Traversal

/-!
The ledger of a run: the constraints under which its nodes were yielded, kept by node identity.
-/
namespace QueryOptimizer

/-- The state of a run over one tree. -/
structure Ledger (ν σ : Type) extends Session σ where
  constraints : Table ν Constraint := .empty

instance : Supplied (Ledger ν σ) := ⟨fun ledger => ledger.supply, fun ledger supply => { ledger with supply }⟩

/-- Computations of a run. -/
abbrev Run (ν σ α : Type) := EStateM Interruption (Ledger ν σ) α

/-- What a run goes by: the environment, the rules, and how many replacements in a row it accepts at a
node that it starts to drive to a fixpoint. -/
structure Setting (ν ω α : Type) where
  environment : Environment
  rules : RuleSet ν ω α
  patience : ν → Nat

variable {ν ω σ : Type}

/-- Runs a rule's computation on the session that the ledger is part of. -/
def Run.ofRule (computation : RuleM σ α) : Run ν σ α := fun ledger =>
  match computation ledger.toSession with
  | .ok result session => .ok result { ledger with toSession := session }
  | .error interruption session => .error interruption { ledger with toSession := session }

/-- Runs a computation on a fresh ledger and returns the constraints it recorded as well. -/
def Run.onFreshLedger (run : Run ν σ α) : RuleM σ (α × Table ν Constraint) := fun session =>
  match run { toSession := session } with
  | .ok result ledger => .ok (result, ledger.constraints) ledger.toSession
  | .error interruption ledger => .error interruption ledger.toSession

/-- Records the constraint of `node`, which replaces `current`: the given one, and those that
`current` and `node` were themselves yielded under. -/
def attachConstraint [Identified ν] (constraints : Table ν Constraint) (current node : ν)
    (constraint : Constraint) : Table ν Constraint :=
  let under (previous : ν) (constraint : Constraint) :=
    match constraints.get? previous with
    | some earlier => earlier.compose constraint
    | none => constraint
  constraints.insert node (under node (under current constraint))

/-- Records for `rebuilt`, a copy of `node` over other children, the constraint of `node`. -/
def carryConstraint [Identified ν] (constraints : Table ν Constraint) (node rebuilt : ν) :
    Table ν Constraint :=
  match constraints.get? node with
  | some constraint => constraints.insert rebuilt constraint
  | none => constraints

/-- The conjunction of the constraints recorded for the nodes of a tree. -/
def collectConstraints [Tree ν ω] (constraints : Table ν Constraint) (root : ν) : Constraint :=
  (((Tree.postOrder root).filterMap constraints.get?).filter Constraint.isConstrained).foldl
    Constraint.compose .none

/-- A node accepted from a rule call. -/
structure Yielded (ν : Type) where
  node : ν
  reExplore : Bool

/-- Calls a rule on one match of `current`. If it yields a node, records the constraint of that node
and returns it. -/
def callRule [Identified ν] (environment : Environment) (rule : SimplificationRule ν ω σ)
    (root current : ν) (bindings : Bindings ν) : Run ν σ (Option (Yielded ν)) := do
  let constraints := (← get).constraints
  let response ← Run.ofRule
    (rule.action { rule := rule.name, root, current, bindings, environment, constraints })
  match response.results with
  | [] => return none
  | [node] =>
    modify fun ledger => { ledger with
      constraints := attachConstraint ledger.constraints current node response.constraint }
    return some ⟨node, response.reExplore⟩
  | results => raise (.ambiguousYield rule.name results.length)

end QueryOptimizer
