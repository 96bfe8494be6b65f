import Std.Data.ExtTreeSet
import QueryOptimizer.Text.Outline
import QueryOptimizer.Text.Quoted

/-!
Aliases: the symbolic names of quantifiers and parameters that an expression can depend on.
-/
namespace QueryOptimizer

@[ext]
structure Alias where
  name : String
  deriving DecidableEq, Repr

namespace Alias

instance : Ord Alias := ⟨compareOn Alias.name⟩

instance : Std.TransOrd Alias := inferInstanceAs (Std.TransCmp (compareOn Alias.name))

instance : Std.LawfulEqOrd Alias where
  eq_of_compare same := Alias.ext (Std.LawfulEqOrd.compare_eq_iff_eq.mp same)

def outline (symbol : Alias) : String :=
  Text.applicationOutline "CorrelationIdentifier" [Text.quote symbol.name]

end Alias

/-- A finite set of aliases, listed in name order. -/
abbrev AliasSet := Std.ExtTreeSet Alias

def AliasSet.of (symbol : Alias) : AliasSet :=
  (∅ : AliasSet).insert symbol

/-- The names of the aliases, in order. -/
def AliasSet.names (aliases : AliasSet) : List String :=
  aliases.toList.map Alias.name

end QueryOptimizer
