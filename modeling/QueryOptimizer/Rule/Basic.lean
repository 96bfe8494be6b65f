import QueryOptimizer.Alias.Equality
import QueryOptimizer.Constraint
import QueryOptimizer.Identity.Table
import QueryOptimizer.Parameters
import QueryOptimizer.Pattern

/-!
Rules. A rule pairs a pattern with an action that runs once per match and answers with replacements
for the matched node. Rules observe nodes and never change them.
-/
namespace QueryOptimizer

/-- What rules may consult about the execution that a plan is made for. -/
structure Environment where
  parameters : Parameters := .empty
  aliases : AliasEquality := .empty
  /-- The aliases that are constant for the duration of one execution. -/
  constants : AliasSet := ∅

/-- The state that rules run in: the identities for new nodes, and whatever the client keeps. -/
structure Session (σ : Type) where
  supply : Supply
  client : σ

instance : Supplied (Session σ) := ⟨Session.supply, fun session supply => { session with supply }⟩

/-- Computations of rules. -/
abbrev RuleM (σ α : Type) := EStateM Interruption (Session σ) α

/-- One invocation of a rule on one match. -/
structure Call (ν : Type) where
  rule : String
  /-- The outermost node of the run. -/
  root : ν
  /-- The node to be replaced. -/
  current : ν
  bindings : Bindings ν
  environment : Environment
  /-- The constraints recorded so far for the nodes that earlier calls yielded. -/
  constraints : Table ν Constraint

namespace Call
variable {ν : Type} [Identified ν]

def isRoot (call : Call ν) : Bool :=
  sameNode call.root call.current

/-- The first node bound under `key`; fails if the rule's pattern binds none. -/
def get [Pure m] [MonadRaise m] (call : Call ν) (key : String) : m ν :=
  match call.bindings.get? key with
  | some node => pure node
  | none => raise (.missingBinding call.rule key)

/-- The constraint under which an earlier call yielded `node`. -/
def constraint? (call : Call ν) (node : ν) : Option Constraint :=
  call.constraints.get? node

/-- The conjunction of the constraints recorded for `nodes`. -/
def carried (call : Call ν) (nodes : List ν) : Constraint :=
  nodes.foldl (fun carried node => carried.compose ((call.constraint? node).getD .none)) .none

/-- The error that reports a failure of the called rule. -/
def failure (call : Call ν) (message : String) : Error :=
  .ruleFailed call.rule message

end Call

/-- What one call of a rule answers: the replacements it yields, the constraint they are valid under,
and whether they are to be explored again, children included. -/
structure Response (β : Type) where
  results : List β := []
  constraint : Constraint := .none
  reExplore : Bool := false

namespace Response
variable {β γ : Type}

/-- The answer of a rule that does not apply. -/
def nothing : Response β := {}

def yield (response : Response β) (result : β) : Response β :=
  { response with results := response.results ++ [result] }

def require (response : Response β) (constraint : Constraint) : Response β :=
  { response with constraint := response.constraint.compose constraint }

def yieldUnder (response : Response β) (result : β) (constraint : Constraint) : Response β :=
  (response.require constraint).yield result

def yieldAndReExplore (response : Response β) (result : β) : Response β :=
  { response.yield result with reExplore := true }

/-- The answer that replaces the node by `result`, valid under `constraint`. -/
def only (result : β) (constraint : Constraint) : Response β :=
  nothing.yieldUnder result constraint

def map (f : β → γ) (response : Response β) : Response γ :=
  { response with results := response.results.map f }

end Response

/-- The outline of a call together with what it has answered so far. -/
def Call.outline (nodeOutline : ν → String) (call : Call ν) (response : Response β) : String :=
  Text.recordOutline "RuleCall"
    [("rule", Text.quote call.rule), ("current", nodeOutline call.current),
      ("bindings", call.bindings.outline nodeOutline),
      ("results", toString response.results.length),
      ("result_constraint", response.constraint.outline),
      ("re_explore", if response.reExplore then "true" else "false")]

/-- A named action on the nodes that match a pattern. -/
structure Rule (ν ω α : Type) where
  name : String
  pattern : Pattern ν ω
  /-- The kind that every matching node has, if there is one: other nodes need not be matched. -/
  rootOperator? : Option ω := none
  action : α

def Rule.map (f : α → β) (rule : Rule ν ω α) : Rule ν ω β :=
  { rule with action := f rule.action }

/-- A rule that replaces a node by an equivalent one. It yields at most one replacement per call;
yielding nothing, or the current node itself, means that it does not apply. -/
abbrev SimplificationRule (ν ω σ : Type) :=
  Rule ν ω (Call ν → RuleM σ (Response ν))

end QueryOptimizer
