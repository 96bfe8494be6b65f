import Std.Data.ExtTreeMap
import QueryOptimizer.Alias

/-!
Equalities between aliases, closed under transitivity as they are recorded.
-/
namespace QueryOptimizer

/-- For every alias that was ever equated with one, the whole class of aliases equal to it. -/
structure AliasEquality where
  classes : Std.ExtTreeMap Alias AliasSet := ∅
  deriving DecidableEq

namespace AliasEquality

def empty : AliasEquality := {}

/-- The class recorded for `symbol`, without `symbol` itself if nothing was equated with it. -/
def classOf (equality : AliasEquality) (symbol : Alias) : AliasSet :=
  equality.classes[symbol]?.getD ∅

/-- Takes out the classes of two aliases, and records what they make up together for each of its
members. -/
def equate (equality : AliasEquality) (left right : Alias) : AliasEquality :=
  let merged := ((equality.classOf left ∪ equality.classOf right).insert left).insert right
  let others := (equality.classes.erase left).erase right
  ⟨merged.foldl (fun classes member => classes.insert member merged) others⟩

def areEqual (equality : AliasEquality) (left right : Alias) : Bool :=
  left = right || (equality.classOf left).contains right

def isEmpty (equality : AliasEquality) : Bool :=
  equality.classes.isEmpty

end AliasEquality
end QueryOptimizer
