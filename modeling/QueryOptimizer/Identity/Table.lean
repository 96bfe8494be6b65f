import Std.Data.ExtTreeMap
import QueryOptimizer.Identity.Supply

/-!
Tables keyed by node identity. Nodes with the same content but different identities are different
keys.
-/
namespace QueryOptimizer

/-- At most one value per node; every entry keeps the node it is for. -/
structure Table (ν β : Type) where
  entries : Std.ExtTreeMap NodeId (ν × β)

namespace Table
variable {ν β : Type} [Identified ν]

def empty : Table ν β := ⟨∅⟩

instance : Inhabited (Table ν β) := ⟨empty⟩

def get? (table : Table ν β) (node : ν) : Option β :=
  table.entries[identity node]?.map Prod.snd

/-- Associates `value` with `node`, in place of any earlier value. -/
def insert (table : Table ν β) (node : ν) (value : β) : Table ν β :=
  ⟨table.entries.insert (identity node) (node, value)⟩

def erase (table : Table ν β) (node : ν) : Table ν β :=
  ⟨table.entries.erase (identity node)⟩

def contains (table : Table ν β) (node : ν) : Bool :=
  table.entries.contains (identity node)

def size (table : Table ν β) : Nat :=
  table.entries.size

def isEmpty (table : Table ν β) : Bool :=
  table.entries.isEmpty

/-- The nodes with their values, oldest identity first. -/
def toList (table : Table ν β) : List (ν × β) :=
  table.entries.toList.map Prod.snd

@[simp] theorem get?_empty (node : ν) : (empty : Table ν β).get? node = none := by
  simp [empty, get?]

theorem get?_insert (table : Table ν β) (node other : ν) (value : β) :
    (table.insert node value).get? other =
      if identity node = identity other then some value else table.get? other := by
  simp only [get?, insert, Std.ExtTreeMap.getElem?_insert, Std.LawfulEqOrd.compare_eq_iff_eq]
  split <;> simp_all

theorem get?_erase (table : Table ν β) (node other : ν) :
    (table.erase node).get? other =
      if identity node = identity other then none else table.get? other := by
  simp only [get?, erase, Std.ExtTreeMap.getElem?_erase, Std.LawfulEqOrd.compare_eq_iff_eq]
  split <;> simp_all

end Table
end QueryOptimizer
