import QueryOptimizer.Simplification.Computation
import QueryOptimizer.Term.Template

/-!
Scripts: rules over terms that are given as data. Every call of a scripted rule is counted and traced,
and the calls of a run are limited by a budget.
-/
namespace QueryOptimizer

/-- A test that a call has to pass for its script to go on. -/
inductive ScriptTest where
  | atRoot
  | belowRoot
  | constant (symbol : Alias)
  | bound (parameter : Alias)
  | equal (left right : Alias)
  /-- The node bound under a key is a positive leaf. -/
  | positive (key : String)
  /-- The node bound under a key was yielded under a constraint that can fail. -/
  | constrained (key : String)
  /-- The rule has been called at most so many times. -/
  | calls (limit : Nat)

inductive ScriptStep where
  /-- Ends the script unless the test holds. -/
  | guard (test : ScriptTest)
  | yield (template : Template)
  | yieldIf (template : Template) (condition : Condition)
  | reExplore (template : Template)
  | constrain (condition : Condition)
  /-- Composes the constraints recorded for the nodes bound under a key. -/
  | carry (key : String)
  /-- Fails unless a node is bound under a key. -/
  | need (key : String)
  | fail (message : String)
  /-- Traces what the call has answered so far. -/
  | note

/-- A rule given as data: its place among the rules, its steps, and whether it computes results of its
own instead of being made to compute. -/
structure Script where
  index : Nat
  direct : Bool
  steps : List ScriptStep

/-- How often each rule was called, how often any was, and the trace, latest line first. -/
structure ScriptState where
  counts : Array Nat
  calls : Nat := 0
  trace : List String := []

abbrev ScriptM := RuleM ScriptState

namespace ScriptState

/-- The state before the first call of one of `rules` rules. -/
def initial (rules : Nat) : ScriptState :=
  { counts := Array.replicate rules 0 }

def count (state : ScriptState) (index : Nat) : ScriptState :=
  { state with counts := state.counts.modify index (· + 1), calls := state.calls + 1 }

def addLine (state : ScriptState) (line : String) : ScriptState :=
  { state with trace := line :: state.trace }

/-- The trace, first line first. -/
def lines (state : ScriptState) : List String :=
  state.trace.reverse

end ScriptState

namespace Script

def change (f : ScriptState → ScriptState) : ScriptM Unit :=
  modify fun session => { session with client := f session.client }

def passes (script : Script) (call : Call Term) : ScriptTest → ScriptM Bool
  | .atRoot => return call.isRoot
  | .belowRoot => return !call.isRoot
  | .constant symbol => return call.environment.constants.contains symbol
  | .bound parameter => return (call.environment.parameters.get? parameter).isSome
  | .equal left right => return call.environment.aliases.areEqual left right
  | .positive key => do return (← call.get key).leafValue?.any fun value => value > 0
  | .constrained key => do return (call.constraint? (← call.get key)).any Constraint.isConstrained
  | .calls limit => do return (← get).client.counts.getD script.index 0 ≤ limit

/-- The line that a note adds to the trace. -/
def noteLine (call : Call Term) (response : Response Term) : String :=
  " ".intercalate ["note", toString response.results.length, response.constraint.text,
    if response.reExplore then "true" else "false", call.outline Term.text response]

/-- Runs the remaining steps on what the call has answered so far. -/
def runSteps (script : Script) (call : Call Term) :
    List ScriptStep → Response Term → ScriptM (Response Term)
  | [], response => return response
  | .guard test :: rest, response => do
    if ← script.passes call test then script.runSteps call rest response else return response
  | .yield template :: rest, response => do
    script.runSteps call rest (response.yield (← template.instantiate call))
  | .yieldIf template condition :: rest, response => do
    script.runSteps call rest (response.yieldUnder (← template.instantiate call) (.of condition))
  | .reExplore template :: rest, response => do
    let term ← template.instantiate call
    script.runSteps call rest
      (if script.direct then response.yield term else response.yieldAndReExplore term)
  | .constrain condition :: rest, response =>
    script.runSteps call rest (response.require (.of condition))
  | .carry key :: rest, response =>
    script.runSteps call rest (response.require (call.carried (call.bindings.getAll key)))
  | .need key :: rest, response => do
    let _ ← (call.get key : ScriptM Term)
    script.runSteps call rest response
  | .fail message :: _, _ => throw (.error (call.failure message))
  | .note :: rest, response => do
    change fun state => state.addLine (noteLine call response)
    script.runSteps call rest response

/-- Runs a script for one call, unless the calls of the run exceed the budget. -/
def run (budget : Nat) (script : Script) (call : Call Term) : ScriptM (Response Term) := do
  change fun state => (state.count script.index).addLine
    (" ".intercalate [call.rule, call.current.text, call.root.text])
  if (← get).client.calls > budget then throw (.error (call.failure "budget exhausted"))
  script.runSteps call script.steps .nothing

/-- The text that sums up a computation: the argument, the node, and the results attached to the
children of the node it replaces. -/
def summary (text : ν → String) (argument : String) (node : ν) (results : List (Option String)) :
    String :=
  argument ++ "<" ++ text node ++ ">[" ++
    ",".intercalate (results.map fun result? => result?.getD "-") ++ "]"

/-- The simplification rule that runs a script. -/
def simplification (budget : Nat) (rule : Rule Term String Script) :
    SimplificationRule Term String ScriptState :=
  rule.map fun script => { script with direct := false }.run budget

/-- The computing rule that runs a script. One with results of its own attaches the result that the
current node had, and the summary; every other one is made to compute the summary. -/
def computation (budget : Nat) (rule : Rule Term String Script) :
    ComputationRule Term String ScriptState String String :=
  if rule.action.direct then
    rule.map fun script call => do
      let response ← script.run budget call.toCall
      let previous := (call.computed.get? call.current).getD "-"
      let childResults := call.current.arguments.map call.computed.get?
      return response.map fun term =>
        (term, previous ++ ">" ++ summary Term.text call.argument term childResults)
  else .ofSimplification (summary Term.text) (simplification budget rule)

/-- No chain of replacements is longer than the budget, because each takes a call. -/
def setting (environment : Environment) (budget : Nat) (rules : RuleSet Term String α) :
    Setting Term String α :=
  { environment, rules, patience := fun _ => budget }

end Script
end QueryOptimizer
