import Std.Data.ExtTreeMap
import QueryOptimizer.Alias

/-!
Renamings of aliases. A renaming replaces each of its source aliases by one target and leaves every
other alias alone.
-/
namespace QueryOptimizer

structure Renaming where
  targets : Std.ExtTreeMap Alias Alias := ∅
  deriving DecidableEq

namespace Renaming

def empty : Renaming := {}

/-- Adds a source with its target, in place of any earlier target of that source. -/
def insert (names : Renaming) (source target : Alias) : Renaming :=
  ⟨names.targets.insert source target⟩

/-- The renaming with these sources and targets, in which a later pair overrides an earlier one. -/
def ofList (pairs : List (Alias × Alias)) : Renaming :=
  pairs.foldl (fun names pair => names.insert pair.1 pair.2) empty

def target? (names : Renaming) (symbol : Alias) : Option Alias :=
  names.targets[symbol]?

/-- The new name of `symbol`: its target if it is a source, and `symbol` itself otherwise. -/
def apply (names : Renaming) (symbol : Alias) : Alias :=
  (names.target? symbol).getD symbol

def renames (names : Renaming) (symbol : Alias) : Bool :=
  names.targets.contains symbol

def renamesAny (names : Renaming) (aliases : AliasSet) : Bool :=
  aliases.any names.renames

/-- The renamed aliases, in name order. -/
def sources (names : Renaming) : List Alias :=
  names.targets.keys

def isEmpty (names : Renaming) : Bool :=
  names.targets.isEmpty

theorem target?_insert (names : Renaming) (source target symbol : Alias) :
    (names.insert source target).target? symbol =
      if source = symbol then some target else names.target? symbol := by
  simp [target?, insert, Std.ExtTreeMap.getElem?_insert]

end Renaming
end QueryOptimizer
