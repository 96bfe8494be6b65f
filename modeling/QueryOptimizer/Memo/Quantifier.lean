import QueryOptimizer.Alias

/-!
Quantifiers: the named inputs of an expression, each of which ranges over a reference of the memo.
-/
namespace QueryOptimizer

/-- Names a reference of a memo. -/
@[ext]
structure ReferenceId where
  index : Nat
  deriving DecidableEq, Repr

namespace ReferenceId

instance : Ord ReferenceId := ⟨compareOn ReferenceId.index⟩

instance : Std.TransOrd ReferenceId := inferInstanceAs (Std.TransCmp (compareOn ReferenceId.index))

instance : Std.LawfulEqOrd ReferenceId where
  eq_of_compare same := ReferenceId.ext (Std.LawfulEqOrd.compare_eq_iff_eq.mp same)

def text (id : ReferenceId) : String :=
  "r" ++ toString id.index

def outline (id : ReferenceId) : String :=
  Text.applicationOutline "ReferenceId" [toString id.index]

end ReferenceId

/-- How an expression consumes the rows of an input. -/
inductive QuantifierKind where
  /-- Every row is consumed. -/
  | forEach
  /-- Only the existence of a row matters. -/
  | existential
  /-- The input is a physical plan. -/
  | physical
  deriving DecidableEq, Repr

def QuantifierKind.outline : QuantifierKind → String
  | forEach => "ForEach"
  | existential => "Existential"
  | physical => "Physical"

/-- The word for a kind in the text of an expression. -/
def QuantifierKind.text : QuantifierKind → String
  | forEach => "each"
  | existential => "exists"
  | physical => "physical"

/-- A named input. Its binder is the name under which the rest of the expression, and any expression
correlated to it, refers to the current row of the input. -/
structure Quantifier where
  kind : QuantifierKind
  binder : Alias
  rangesOver : ReferenceId
  deriving DecidableEq

namespace Quantifier

/-- The same quantifier over another reference. -/
def rangingOver (quantifier : Quantifier) (reference : ReferenceId) : Quantifier :=
  { quantifier with rangesOver := reference }

def text (quantifier : Quantifier) : String :=
  "(" ++ quantifier.kind.text ++ " " ++ quantifier.binder.name ++ " " ++ quantifier.rangesOver.text ++ ")"

def outline (quantifier : Quantifier) : String :=
  Text.recordOutline "Quantifier"
    [("kind", quantifier.kind.outline), ("alias", quantifier.binder.outline),
      ("ranges_over", quantifier.rangesOver.outline)]

end Quantifier
end QueryOptimizer
