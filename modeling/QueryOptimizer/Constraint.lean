import Std.Data.ExtTreeSet
import QueryOptimizer.Alias
import QueryOptimizer.Literal

/-!
Constraints: the assumptions about parameters under which a plan stays valid, each a conjunction of
conditions.
-/
namespace QueryOptimizer

/-- An assumption about the parameters of an execution. -/
inductive Condition where
  | isNull (parameter : Alias)
  | isNotNull (parameter : Alias)
  | equals (parameter : Alias) (value : Literal)
  | custom (description : String)
  deriving DecidableEq

namespace Condition

def rank : Condition → Nat
  | isNull _ => 0
  | isNotNull _ => 1
  | equals _ _ => 2
  | custom _ => 3

/-- The parameter that a condition is about, or its description. -/
def subject : Condition → String
  | isNull parameter => parameter.name
  | isNotNull parameter => parameter.name
  | equals parameter _ => parameter.name
  | custom description => description

def value : Condition → Literal
  | equals _ value => value
  | _ => .null

/-- By kind, then by parameter or description, then by value. -/
instance : Ord Condition := ⟨compareLex (compareOn rank) (compareLex (compareOn subject) (compareOn value))⟩

instance : Std.TransOrd Condition :=
  inferInstanceAs (Std.TransCmp (compareLex (compareOn rank)
    (compareLex (compareOn subject) (compareOn value))))

theorem eq_of_parts {left right : Condition} (ranks : left.rank = right.rank)
    (subjects : left.subject = right.subject) (values : left.value = right.value) :
    left = right := by
  cases left <;> cases right <;> simp_all [rank, subject, value, Alias.ext_iff]

instance : Std.LawfulEqOrd Condition where
  eq_of_compare {left right} same := by
    obtain ⟨ranks, rest⟩ := Ordering.then_eq_eq.mp
      (show (compareOn rank left right).then (compareLex (compareOn subject) (compareOn value) left right) =
        .eq from same)
    obtain ⟨subjects, values⟩ := Ordering.then_eq_eq.mp rest
    exact eq_of_parts (Std.LawfulEqOrd.compare_eq_iff_eq.mp ranks)
      (Std.LawfulEqOrd.compare_eq_iff_eq.mp subjects) (Std.LawfulEqOrd.compare_eq_iff_eq.mp values)

def text : Condition → String
  | isNull parameter => parameter.name ++ " IS NULL"
  | isNotNull parameter => parameter.name ++ " IS NOT NULL"
  | equals parameter value => parameter.name ++ " = " ++ value.text
  | custom description => description

def outline : Condition → String
  | isNull parameter => Text.applicationOutline "IsNull" [parameter.outline]
  | isNotNull parameter => Text.applicationOutline "IsNotNull" [parameter.outline]
  | equals parameter value => Text.applicationOutline "Equals" [parameter.outline, value.outline]
  | custom description => Text.applicationOutline "Custom" [Text.quote description]

end Condition

/-- A conjunction of conditions; the empty one always holds. -/
structure Constraint where
  conditions : Std.ExtTreeSet Condition := ∅
  deriving DecidableEq

namespace Constraint

def none : Constraint := {}

instance : Inhabited Constraint := ⟨none⟩

def of (condition : Condition) : Constraint :=
  ⟨(∅ : Std.ExtTreeSet Condition).insert condition⟩

/-- Whether the constraint could fail to hold. -/
def isConstrained (constraint : Constraint) : Bool :=
  !constraint.conditions.isEmpty

/-- The conjunction of two constraints; if one of them always holds, that is the other one. -/
def compose (first second : Constraint) : Constraint :=
  if !second.isConstrained then first
  else if !first.isConstrained then second
  else ⟨first.conditions ∪ second.conditions⟩

def text (constraint : Constraint) : String :=
  if constraint.isConstrained then
    " AND ".intercalate (constraint.conditions.toList.map Condition.text)
  else "TRUE"

def outline (constraint : Constraint) : String :=
  Text.recordOutline "QueryPlanConstraint"
    [("conjuncts", Text.setOutline (constraint.conditions.toList.map Condition.outline))]

theorem isConstrained_iff {constraint : Constraint} :
    constraint.isConstrained = true ↔ ∃ condition, condition ∈ constraint.conditions := by
  rw [isConstrained, Bool.not_eq_true', Std.ExtTreeSet.isEmpty_eq_false_iff,
    Std.ExtTreeSet.eq_empty_iff_forall_not_mem, Classical.not_forall_not]

theorem mem_compose {first second : Constraint} {condition : Condition} :
    condition ∈ (first.compose second).conditions ↔
      condition ∈ first.conditions ∨ condition ∈ second.conditions := by
  have absent {constraint : Constraint} (always : (!constraint.isConstrained) = true) :
      condition ∉ constraint.conditions := fun present => by
    simp [isConstrained_iff.mpr ⟨condition, present⟩] at always
  unfold compose
  split
  · rename_i always
    simp only [absent always, or_false]
  split
  · rename_i always
    simp only [absent always, false_or]
  · exact Std.ExtTreeSet.mem_union_iff

end Constraint

/-- A value with the constraint under which it is valid. -/
structure Constrained (α : Type) where
  value : α
  constraint : Constraint := .none

end QueryOptimizer
