import QueryOptimizer.Expression.Reader
import QueryOptimizer.Predicate.Rules

/-!
What the languages of scalar expressions and of predicates have in common.
-/
namespace QueryOptimizer

/-- Trees with a textual syntax that refer to aliases. -/
class Expression (ν : Type) (ω : outParam Type) extends Tree ν ω where
  parse : String → ReadM ν
  text : ν → String
  outline : ν → String
  operatorOutline : ω → String
  correlatedTo : ν → AliasSet
  /-- Whether two expressions are equal apart from the identities of their nodes. -/
  agrees : ν → ν → Bool
  rename : Renaming → ν → EStateM Error Supply ν
  /-- Bounds the length of a chain of replacements from a node. -/
  weight : ν → Nat

instance : Expression Scalar ScalarKind where
  parse := Scalar.parse
  text := Scalar.text
  outline := Scalar.outline
  operatorOutline := ScalarKind.outline
  correlatedTo := Scalar.correlatedTo
  agrees := Scalar.agrees
  rename := fun names => Scalar.rename names
  weight := Scalar.weight

instance : Expression Predicate PredicateKind where
  parse := Predicate.parse
  text := Predicate.text
  outline := Predicate.outline
  operatorOutline := PredicateKind.outline
  correlatedTo := Predicate.correlatedTo
  agrees := Predicate.agrees
  rename := fun names => Predicate.rename names
  weight := Predicate.weight

end QueryOptimizer
