import QueryOptimizer.DependencyOrder
import QueryOptimizer.Memo.Basic

/-!
What the references of a memo depend on: the references they range over, and the aliases they are
correlated to.
-/
namespace QueryOptimizer

namespace Reference
variable {ε : Type} [RelationalExpression ε]

/-- The references that the members range over, in order and with repetitions. -/
def inputs (reference : Reference ε) : List ReferenceId :=
  reference.members.flatMap fun member =>
    (RelationalExpression.quantifiers member.expression).map Quantifier.rangesOver

end Reference

/-- The aliases that each reference visited so far is correlated to. -/
abbrev Correlations := Std.ExtTreeMap ReferenceId AliasSet

/-- The aliases that an expression is correlated to, given those of the references it ranges over. The
aliases bound by its own quantifiers are not among them. -/
def correlationsOf [RelationalExpression ε] (known : Correlations) (expression : ε) :
    Except MemoError AliasSet := do
  let quantifiers := RelationalExpression.quantifiers expression
  let free ← quantifiers.foldlM (fun free quantifier =>
    match known[quantifier.rangesOver]? with
    | some inherited => .ok (free ∪ inherited)
    | none => .error (.missingRenaming quantifier.rangesOver))
    (RelationalExpression.ownCorrelations expression)
  return quantifiers.foldl (fun free quantifier => free.erase quantifier.binder) free

namespace Memo
variable {ε : Type} [RelationalExpression ε]

/-- Visits the elements of `order` from the one at `visited` on, and adds to it what they range over.
A visit either fails or reaches a reference of the memo not visited before, so that as many visits as
the memo has references are enough. -/
def walk (memo : Memo ε) : (remaining visited : Nat) → DependencyOrder ReferenceId →
    Except MemoError (DependencyOrder ReferenceId)
  | remaining, visited, order =>
    match order.elements[visited]? with
    | none => .ok order
    | some id => do
      let reference ← memo.find id
      let extended := reference.inputs.foldl (fun order input => order.addDependency id input) order
      match remaining with
      | 0 => return extended
      | remaining + 1 => memo.walk remaining (visited + 1) extended

/-- The given references and all that are reachable from them, each depending on the references that
its members range over. -/
def dependencyOrder (memo : Memo ε) (ids : List ReferenceId) :
    Except MemoError (DependencyOrder ReferenceId) :=
  memo.walk memo.size 0 (ids.foldl DependencyOrder.addElement .empty)

/-- The reachable references, each after those it ranges over. -/
def topologicalOrder (memo : Memo ε) (ids : List ReferenceId) :
    Except MemoError (List ReferenceId) := do
  match (← memo.dependencyOrder ids).topologicalOrder? with
  | some order => return order
  | none => throw .cyclicGraph

/-- Adds to `known` what the reference called `id` is correlated to: the union over its members. -/
def addCorrelations (memo : Memo ε) (known : Correlations) (id : ReferenceId) :
    Except MemoError Correlations := do
  let reference ← memo.find id
  let correlated ← reference.members.foldlM (fun correlated member => do
    return correlated ∪ (← correlationsOf known member.expression)) (∅ : AliasSet)
  return known.insert id correlated

/-- What each reference of `order` is correlated to. The order has to list what a reference ranges
over before the reference. -/
def correlationsInOrder (memo : Memo ε) (order : List ReferenceId) : Except MemoError Correlations :=
  order.foldlM memo.addCorrelations ∅

/-- The aliases that the members of `id` are correlated to, without those they bind themselves. -/
def correlatedTo (memo : Memo ε) (id : ReferenceId) : Except MemoError AliasSet := do
  let order ← memo.topologicalOrder [id]
  match (← memo.correlationsInOrder order)[id]? with
  | some correlated => return correlated
  | none => throw (.unknownReference id)

end Memo
end QueryOptimizer
