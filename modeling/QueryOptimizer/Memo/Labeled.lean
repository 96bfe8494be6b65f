import QueryOptimizer.Memo.Basic
import QueryOptimizer.Text.Json

/-!
Labeled expressions: the least that a memo needs to know about an expression, for clients whose
expressions are of no further interest to it.
-/
namespace QueryOptimizer

structure LabeledExpression where
  label : String
  correlated : AliasSet
  quantifiers : List Quantifier
  /-- Why the expression cannot be renamed, if it cannot. -/
  obstacle? : Option String := none

namespace LabeledExpression

/-- Marks the label of a renamed expression: with an exclamation mark if its values were simplified,
and with a prime otherwise. -/
def rename (names : Renaming) (simplifyValues : Bool) (inputs : List Quantifier)
    (expression : LabeledExpression) : EStateM Interruption Supply LabeledExpression :=
  match expression.obstacle? with
  | some obstacle => raise (.internal obstacle)
  | none =>
    return { expression with
      label := expression.label ++ (if simplifyValues then "!" else "'")
      correlated := .ofList (expression.correlated.toList.map names.apply) compare
      quantifiers := inputs }

instance : RelationalExpression LabeledExpression where
  quantifiers := quantifiers
  ownCorrelations := correlated
  rename := rename

def quantifierText (quantifier : Quantifier) : String :=
  " " ++ quantifier.kind.outline ++ ":" ++ quantifier.binder.name ++ ":" ++ quantifier.rangesOver.text

def text (expression : LabeledExpression) : String :=
  expression.label ++ Text.jsonStrings expression.correlated.names ++
    String.join (expression.quantifiers.map quantifierText)

end LabeledExpression
end QueryOptimizer
