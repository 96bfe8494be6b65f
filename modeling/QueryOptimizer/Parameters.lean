import Std.Data.ExtTreeMap
import QueryOptimizer.Alias
import QueryOptimizer.Literal

/-!
Parameter bindings: the values that parameters have in one execution of a query.
-/
namespace QueryOptimizer

structure Parameters where
  values : Std.ExtTreeMap Alias Literal := ∅
  deriving DecidableEq

namespace Parameters

def empty : Parameters := {}

/-- Binds `parameter`, in place of any earlier value. -/
def bind (parameters : Parameters) (parameter : Alias) (value : Literal) : Parameters :=
  ⟨parameters.values.insert parameter value⟩

def get? (parameters : Parameters) (parameter : Alias) : Option Literal :=
  parameters.values[parameter]?

theorem get?_bind (parameters : Parameters) (parameter other : Alias) (value : Literal) :
    (parameters.bind parameter value).get? other =
      if parameter = other then some value else parameters.get? other := by
  simp [get?, bind, Std.ExtTreeMap.getElem?_insert]

end Parameters
end QueryOptimizer
