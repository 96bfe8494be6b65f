import QueryOptimizer.Simplification.BottomUp

/-!
Computations: simplification with rules that attach a result to every node they yield.
-/
namespace QueryOptimizer
variable {ν ω σ A ρ : Type}

/-- A call of a rule that computes, which can also see the argument of the computation and the results
attached so far. -/
structure ComputationCall (ν A ρ : Type) extends Call ν where
  argument : A
  computed : Table ν ρ

/-- A rule that replaces a node by an equivalent one and attaches a result to the replacement. -/
abbrev ComputationRule (ν ω σ A ρ : Type) :=
  Rule ν ω (ComputationCall ν A ρ → RuleM σ (Response (ν × ρ)))

/-- Makes a simplification rule compute: every node it yields gets the result of `summary` for the
argument, that node, and what is attached to the children of the node it replaces. -/
def ComputationRule.ofSimplification [Tree ν ω] (summary : A → ν → List (Option ρ) → ρ)
    (rule : SimplificationRule ν ω σ) : ComputationRule ν ω σ A ρ :=
  rule.map fun action call => do
    let childResults := (Tree.children call.current).map call.computed.get?
    let response ← action call.toCall
    return response.map fun node => (node, summary call.argument node childResults)

/-- A session that also keeps the results attached so far. -/
abbrev ComputationState (ν σ ρ : Type) := σ × Table ν ρ

/-- Runs a computation that does not touch the attached results. -/
def RuleM.keepingResults (computation : RuleM σ α) : RuleM (ComputationState ν σ ρ) α := fun session =>
  let (client, computed) := session.client
  match computation ⟨session.supply, client⟩ with
  | .ok result inner => .ok result ⟨inner.supply, inner.client, computed⟩
  | .error interruption inner => .error interruption ⟨inner.supply, inner.client, computed⟩

/-- A simplification rule that yields the nodes of a computing rule and keeps the result attached to
the one that is accepted. -/
def ComputationRule.recording [Identified ν] (argument : A) (rule : ComputationRule ν ω σ A ρ) :
    SimplificationRule ν ω (ComputationState ν σ ρ) :=
  rule.map fun action call => do
    let computed := (← get).client.2
    let response ← (action { call with argument, computed }).keepingResults
    if let [(node, result)] := response.results then
      modify fun session => { session with
        client := (session.client.1, session.client.2.insert node result) }
    return response.map Prod.fst

/-- Simplifies the tree with computing rules, and returns it with the result attached to its root, or
nothing if no rule yielded that root. -/
def compute [Tree ν ω] [DecidableEq ω]
    (setting : Setting ν ω (ComputationCall ν A ρ → RuleM σ (Response (ν × ρ)))) (argument : A)
    (root : ν) : RuleM σ (Option (Constrained ν × ρ)) := fun session =>
  let recording : Setting ν ω (Call ν → RuleM (ComputationState ν σ ρ) (Response ν)) :=
    { setting with rules := setting.rules.map (ComputationRule.recording argument) }
  match simplify recording root ⟨session.supply, session.client, .empty⟩ with
  | .ok simplified ⟨supply, client, computed⟩ =>
    .ok ((computed.get? simplified.value).map (simplified, ·)) ⟨supply, client⟩
  | .error interruption ⟨supply, client, _⟩ => .error interruption ⟨supply, client⟩

end QueryOptimizer
