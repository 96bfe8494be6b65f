import QueryOptimizer.Rule.Basic
import QueryOptimizer.Term.Basic

/-!
Templates: what a scripted rule builds a term from when it is called.
-/
namespace QueryOptimizer

inductive Template where
  | leaf (value : Int64)
  | current
  | root
  /-- The node bound under a key. -/
  | bound (key : String)
  /-- A leaf one below the leaf bound under a key; any other node bound there as it is. -/
  | lowered (key : String)
  /-- A leaf with the integer that a parameter is bound to, or zero. -/
  | parameter (parameter : Alias)
  /-- All arguments of the current node, for use inside an operator. -/
  | currentArguments
  /-- All nodes bound under a key, for use inside an operator. -/
  | allBound (key : String)
  | apply (name : String) (parts : List Template)

namespace Template

/-- The integer that a parameter is bound to, or zero. -/
def integerOf (parameters : Parameters) (parameter : Alias) : Int64 :=
  match parameters.get? parameter with
  | some (.int value) => value
  | _ => 0

mutual

/-- The terms that a template stands for in a call: one, unless it splices a list. -/
def expand (call : Call Term) : Template → RuleM σ (List Term)
  | .leaf value => return [.leaf (← fresh) value]
  | .current => return [call.current]
  | .root => return [call.root]
  | .bound key => return [← call.get key]
  | .lowered key => do
    let term ← call.get key
    match term.leafValue? with
    | some value => return [.leaf (← fresh) (value - 1)]
    | none => return [term]
  | .parameter symbol =>
    return [.leaf (← fresh) (integerOf call.environment.parameters symbol)]
  | .currentArguments => return call.current.arguments
  | .allBound key => return call.bindings.getAll key
  | .apply name parts => do
    let arguments ← expandEach call parts
    return [.apply (← fresh) name arguments]

def expandEach (call : Call Term) : List Template → RuleM σ (List Term)
  | [] => return []
  | template :: rest => do
    let terms ← expand call template
    return terms ++ (← expandEach call rest)

end

/-- The term that a template stands for in a call. -/
def instantiate (call : Call Term) (template : Template) : RuleM σ Term := do
  return (← expand call template).headD call.current

end Template
end QueryOptimizer
