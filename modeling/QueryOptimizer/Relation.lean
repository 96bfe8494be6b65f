import QueryOptimizer.Memo.Basic
import QueryOptimizer.Predicate.Rules

/-!
Relational expressions: scans of tables, selections over quantified inputs, and unions.
-/
namespace QueryOptimizer

inductive Relation where
  /-- All rows of a table. -/
  | scan (table : String)
  /-- Joins its inputs, keeps the rows that satisfy every predicate, and computes the projection for
  each of them. -/
  | select (quantifiers : List Quantifier) (predicates : List Predicate) (projection : List Scalar)
  /-- All rows of all inputs. -/
  | union (quantifiers : List Quantifier)

namespace Relation

def quantifiers : Relation → List Quantifier
  | scan _ => []
  | select quantifiers _ _ => quantifiers
  | union quantifiers => quantifiers

/-- The aliases that the values of the expression refer to. -/
def ownCorrelations : Relation → AliasSet
  | select _ predicates projection =>
    Predicate.correlatedToEach predicates ∪ Scalar.correlatedToEach projection
  | _ => ∅

/-- Runs rules that need no more than identities for new nodes. -/
def withoutClient (computation : RuleM Unit α) : EStateM Interruption Supply α := fun supply =>
  match computation ⟨supply, ()⟩ with
  | .ok result session => .ok result session.supply
  | .error interruption session => .error interruption session.supply

def ruleSetOf : Except Error α → EStateM Interruption Supply α
  | .ok rules => pure rules
  | .error error => raise error

/-- Simplifies values with the default rules. No parameter counts as constant, so that the results
are valid unconditionally. -/
def simplifyValues (predicates : List Predicate) (projection : List Scalar) :
    EStateM Interruption Supply (List Predicate × List Scalar) := do
  let predicateRules ← ruleSetOf Predicate.defaultRules
  let simplifiedPredicates ← predicates.mapM fun predicate =>
    withoutClient (simplify (Predicate.setting {} predicateRules) predicate)
  let scalarRules ← ruleSetOf Scalar.defaultRules
  let simplifiedProjection ← projection.mapM fun scalar =>
    withoutClient (simplify (Scalar.setting {} scalarRules) scalar)
  return (simplifiedPredicates.map Constrained.value, simplifiedProjection.map Constrained.value)

/-- The expression over other inputs, with the aliases that its values refer to renamed. -/
def rename (names : Renaming) (simplify : Bool) (inputs : List Quantifier) :
    Relation → EStateM Interruption Supply Relation
  | scan table => return scan table
  | union _ => return union inputs
  | select _ predicates projection => do
    let renamedPredicates ← predicates.mapM (Predicate.rename names)
    let renamedProjection ← projection.mapM (Scalar.rename names)
    if simplify then
      let (simplifiedPredicates, simplifiedProjection) ←
        simplifyValues renamedPredicates renamedProjection
      return select inputs simplifiedPredicates simplifiedProjection
    else return select inputs renamedPredicates renamedProjection

instance : RelationalExpression Relation where
  quantifiers := quantifiers
  ownCorrelations := ownCorrelations
  rename := rename

/-- Texts, each after a blank. -/
def spaced (texts : List String) : String :=
  String.join (texts.map (" " ++ ·))

def text : Relation → String
  | scan table => "(scan " ++ table ++ ")"
  | select quantifiers predicates projection =>
    "(select" ++ spaced (quantifiers.map Quantifier.text) ++ " (where" ++
      Predicate.textEach predicates ++ ") (project" ++ Scalar.textEach projection ++ "))"
  | union quantifiers => "(union" ++ spaced (quantifiers.map Quantifier.text) ++ ")"

def outline : Relation → String
  | scan table => Text.recordOutline "Scan" [("table", Text.quote table)]
  | select quantifiers predicates projection =>
    Text.recordOutline "Select"
      [("quantifiers", Text.listOutline (quantifiers.map Quantifier.outline)),
        ("predicates", Text.listOutline (predicates.map Predicate.outline)),
        ("projection", Text.listOutline (projection.map Scalar.outline))]
  | union quantifiers =>
    Text.recordOutline "Union" [("quantifiers", Text.listOutline (quantifiers.map Quantifier.outline))]

end Relation
end QueryOptimizer
