import Std.Data.ExtTreeSet
import QueryOptimizer.Text.Outline
import QueryOptimizer.Text.Quoted

/-!
Literals: the constant values that expressions compute with and parameters are bound to.
-/
namespace QueryOptimizer

inductive Literal where
  | null
  | bool (value : Bool)
  | int (value : Int64)
  | string (value : String)
  deriving DecidableEq

namespace Literal

def isNull : Literal → Bool
  | null => true
  | _ => false

/-- The place of each type in the order of literals. -/
def rank : Literal → Nat
  | null => 0
  | bool _ => 1
  | int _ => 2
  | string _ => 3

/-- The part of a literal that is ordered as a number. -/
def number : Literal → Int64
  | bool true => 1
  | int value => value
  | _ => 0

/-- The part of a literal that is ordered as text. -/
def letters : Literal → String
  | string value => value
  | _ => ""

/-- Null, then booleans, then integers, then strings, each type in its own order. -/
instance : Ord Literal := ⟨compareLex (compareOn rank) (compareLex (compareOn number) (compareOn letters))⟩

instance : Std.TransOrd Literal :=
  inferInstanceAs (Std.TransCmp (compareLex (compareOn rank)
    (compareLex (compareOn number) (compareOn letters))))

theorem eq_of_parts {left right : Literal} (ranks : left.rank = right.rank)
    (numbers : left.number = right.number) (texts : left.letters = right.letters) :
    left = right := by
  cases left <;> cases right <;> simp_all [rank, number, letters]
  rename_i one other
  cases one <;> cases other <;> simp_all

instance : Std.LawfulEqOrd Literal where
  eq_of_compare {left right} same := by
    obtain ⟨ranks, rest⟩ := Ordering.then_eq_eq.mp
      (show (compareOn rank left right).then (compareLex (compareOn number) (compareOn letters) left right) =
        .eq from same)
    obtain ⟨numbers, texts⟩ := Ordering.then_eq_eq.mp rest
    exact eq_of_parts (Std.LawfulEqOrd.compare_eq_iff_eq.mp ranks)
      (Std.LawfulEqOrd.compare_eq_iff_eq.mp numbers) (Std.LawfulEqOrd.compare_eq_iff_eq.mp texts)

/-- The literal as it is written in an expression. -/
def text : Literal → String
  | null => "null"
  | bool true => "true"
  | bool false => "false"
  | int value => toString value
  | string value => Text.quote value

def outline : Literal → String
  | null => "Null"
  | bool value => Text.applicationOutline "Bool" [if value then "true" else "false"]
  | int value => Text.applicationOutline "Int" [toString value]
  | string value => Text.applicationOutline "String" [Text.quote value]

end Literal
end QueryOptimizer
