import QueryOptimizer.Alias
import QueryOptimizer.Alias.Equality
import QueryOptimizer.Alias.Renaming
import QueryOptimizer.Constraint
import QueryOptimizer.DependencyOrder
import QueryOptimizer.Error
import QueryOptimizer.Expression.Language
import QueryOptimizer.Expression.Reader
import QueryOptimizer.Expression.Sexp
import QueryOptimizer.Expression.Token
import QueryOptimizer.Identity.Numbering
import QueryOptimizer.Identity.Supply
import QueryOptimizer.Identity.Table
import QueryOptimizer.Integer64
import QueryOptimizer.Literal
import QueryOptimizer.Memo.Basic
import QueryOptimizer.Memo.Correlation
import QueryOptimizer.Memo.Labeled
import QueryOptimizer.Memo.Quantifier
import QueryOptimizer.Memo.Renaming
import QueryOptimizer.Parameters
import QueryOptimizer.Pattern
import QueryOptimizer.Predicate.Basic
import QueryOptimizer.Predicate.Rules
import QueryOptimizer.Predicate.Truth
import QueryOptimizer.Proofs.Agreement
import QueryOptimizer.Proofs.AliasClasses
import QueryOptimizer.Proofs.Arrangement
import QueryOptimizer.Proofs.BrokenGraphs
import QueryOptimizer.Proofs.CheckedRecursion
import QueryOptimizer.Proofs.ComposedConstraints
import QueryOptimizer.Proofs.Computation
import QueryOptimizer.Proofs.ComputedResults
import QueryOptimizer.Proofs.ConstantParameters
import QueryOptimizer.Proofs.DependencyOrder
import QueryOptimizer.Proofs.DerivedConstraints
import QueryOptimizer.Proofs.Expression.Aliases
import QueryOptimizer.Proofs.Expression.Bare
import QueryOptimizer.Proofs.Expression.Canonical
import QueryOptimizer.Proofs.Expression.Grammar
import QueryOptimizer.Proofs.Expression.Nesting
import QueryOptimizer.Proofs.Expression.Numeral
import QueryOptimizer.Proofs.Expression.PredicateReading
import QueryOptimizer.Proofs.Expression.Printing
import QueryOptimizer.Proofs.Expression.ScalarReading
import QueryOptimizer.Proofs.Expression.Scanning
import QueryOptimizer.Proofs.FirstAlternatives
import QueryOptimizer.Proofs.FreeAliases
import QueryOptimizer.Proofs.Garbage
import QueryOptimizer.Proofs.GreedyOrder
import QueryOptimizer.Proofs.Hints
import QueryOptimizer.Proofs.Idempotence
import QueryOptimizer.Proofs.IndependentAlternatives
import QueryOptimizer.Proofs.Matching
import QueryOptimizer.Proofs.Memo.Basic
import QueryOptimizer.Proofs.Memo.Calls
import QueryOptimizer.Proofs.Memo.Correlation
import QueryOptimizer.Proofs.Memo.Exposure
import QueryOptimizer.Proofs.Memo.Outcome
import QueryOptimizer.Proofs.Memo.Reachability
import QueryOptimizer.Proofs.Memo.Renaming
import QueryOptimizer.Proofs.Memo.Scoping
import QueryOptimizer.Proofs.NormalForm
import QueryOptimizer.Proofs.Parsing
import QueryOptimizer.Proofs.Pattern
import QueryOptimizer.Proofs.PostOrder
import QueryOptimizer.Proofs.Predicate.Canonical
import QueryOptimizer.Proofs.Predicate.Confinement
import QueryOptimizer.Proofs.Predicate.Connective
import QueryOptimizer.Proofs.Predicate.Contract
import QueryOptimizer.Proofs.Predicate.Exploration
import QueryOptimizer.Proofs.Predicate.Form
import QueryOptimizer.Proofs.Predicate.Idle
import QueryOptimizer.Proofs.Predicate.NormalForm
import QueryOptimizer.Proofs.Predicate.Normalization
import QueryOptimizer.Proofs.Predicate.Renaming
import QueryOptimizer.Proofs.Predicate.Sharing
import QueryOptimizer.Proofs.Predicate.Simplest
import QueryOptimizer.Proofs.Predicate.Soundness
import QueryOptimizer.Proofs.Predicate.Step
import QueryOptimizer.Proofs.Predicate.Termination
import QueryOptimizer.Proofs.ReachedMemos
import QueryOptimizer.Proofs.Relation
import QueryOptimizer.Proofs.RepeatedRenaming
import QueryOptimizer.Proofs.Retention
import QueryOptimizer.Proofs.RightRoots
import QueryOptimizer.Proofs.RoundTrip
import QueryOptimizer.Proofs.Rule.Building
import QueryOptimizer.Proofs.Rule.Conformance
import QueryOptimizer.Proofs.Rule.Contract
import QueryOptimizer.Proofs.Rule.Form
import QueryOptimizer.Proofs.Rule.Mapping
import QueryOptimizer.Proofs.Rule.Set
import QueryOptimizer.Proofs.RuleDependencies
import QueryOptimizer.Proofs.RuleOrder
import QueryOptimizer.Proofs.Scalar.Confinement
import QueryOptimizer.Proofs.Scalar.Contract
import QueryOptimizer.Proofs.Scalar.Form
import QueryOptimizer.Proofs.Scalar.Renaming
import QueryOptimizer.Proofs.Scalar.Sharing
import QueryOptimizer.Proofs.Scalar.Simplest
import QueryOptimizer.Proofs.Scalar.Soundness
import QueryOptimizer.Proofs.Scalar.Step
import QueryOptimizer.Proofs.Schedule
import QueryOptimizer.Proofs.Semantics
import QueryOptimizer.Proofs.Simplification.Agreement
import QueryOptimizer.Proofs.Simplification.Alternatives
import QueryOptimizer.Proofs.Simplification.Call
import QueryOptimizer.Proofs.Simplification.Canonical
import QueryOptimizer.Proofs.Simplification.Confinement
import QueryOptimizer.Proofs.Simplification.Course
import QueryOptimizer.Proofs.Simplification.Driving
import QueryOptimizer.Proofs.Simplification.Fixpoint
import QueryOptimizer.Proofs.Simplification.Hint
import QueryOptimizer.Proofs.Simplification.History
import QueryOptimizer.Proofs.Simplification.Idempotence
import QueryOptimizer.Proofs.Simplification.InVain
import QueryOptimizer.Proofs.Simplification.Indifference
import QueryOptimizer.Proofs.Simplification.Ledger
import QueryOptimizer.Proofs.Simplification.Meaning
import QueryOptimizer.Proofs.Simplification.Noting
import QueryOptimizer.Proofs.Simplification.Occurrence
import QueryOptimizer.Proofs.Simplification.Patience
import QueryOptimizer.Proofs.Simplification.Placement
import QueryOptimizer.Proofs.Simplification.Projection
import QueryOptimizer.Proofs.Simplification.Provenance
import QueryOptimizer.Proofs.Simplification.Results
import QueryOptimizer.Proofs.Simplification.Settling
import QueryOptimizer.Proofs.Simplification.Sighting
import QueryOptimizer.Proofs.Simplification.Stability
import QueryOptimizer.Proofs.Simplification.Stages
import QueryOptimizer.Proofs.Simplification.Watching
import QueryOptimizer.Proofs.Simplification.Weight
import QueryOptimizer.Proofs.Soundness
import QueryOptimizer.Proofs.Term
import QueryOptimizer.Proofs.Termination
import QueryOptimizer.Proofs.Tree.Arena
import QueryOptimizer.Proofs.Tree.Descent
import QueryOptimizer.Proofs.Tree.Fold
import QueryOptimizer.Proofs.Tree.Renaming
import QueryOptimizer.Proofs.Tree.Sharing
import QueryOptimizer.Proofs.Unchanged
import QueryOptimizer.Proofs.UntouchedSubtrees
import QueryOptimizer.Proofs.ValueRenaming
import QueryOptimizer.RecursionGuard
import QueryOptimizer.Relation
import QueryOptimizer.Rule.Basic
import QueryOptimizer.Rule.Set
import QueryOptimizer.Scalar.Basic
import QueryOptimizer.Scalar.Function
import QueryOptimizer.Scalar.Rules
import QueryOptimizer.Simplification.BottomUp
import QueryOptimizer.Simplification.Computation
import QueryOptimizer.Simplification.Exploration
import QueryOptimizer.Simplification.Fixpoint
import QueryOptimizer.Simplification.Ledger
import QueryOptimizer.Term.Basic
import QueryOptimizer.Term.Script
import QueryOptimizer.Term.Template
import QueryOptimizer.Text.Blank
import QueryOptimizer.Text.Grapheme
import QueryOptimizer.Text.Ignorable
import QueryOptimizer.Text.Json
import QueryOptimizer.Text.Numeral
import QueryOptimizer.Text.Outline
import QueryOptimizer.Text.Printable
import QueryOptimizer.Text.Quoted
import QueryOptimizer.Tree.Basic
import QueryOptimizer.Tree.Traversal
