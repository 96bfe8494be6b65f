import Std.Data.ExtTreeMap

/-!
Identities of nodes. Two nodes with the same content are told apart by their identities, which are
drawn from a supply that never hands out the same one twice.
-/
namespace QueryOptimizer

@[ext]
structure NodeId where
  index : Nat
  deriving DecidableEq, Repr

namespace NodeId

instance : Ord NodeId := ⟨compareOn NodeId.index⟩

instance : Std.TransOrd NodeId := inferInstanceAs (Std.TransCmp (compareOn NodeId.index))

instance : Std.LawfulEqOrd NodeId where
  eq_of_compare same := NodeId.ext (Std.LawfulEqOrd.compare_eq_iff_eq.mp same)

end NodeId

/-- Values that have an identity besides their content. -/
class Identified (ν : Type) where
  identity : ν → NodeId

export Identified (identity)

/-- Whether two values are one and the same node. -/
def sameNode [Identified ν] (left right : ν) : Bool :=
  identity left = identity right

theorem sameNode_iff [Identified ν] {left right : ν} :
    sameNode left right = true ↔ identity left = identity right := by
  simp [sameNode]

/-- The identities not yet handed out: every index from `allocated` on. -/
structure Supply where
  allocated : Nat := 0
  deriving DecidableEq, Repr

/-- Hands out the next identity. -/
def Supply.draw (supply : Supply) : NodeId × Supply :=
  (⟨supply.allocated⟩, ⟨supply.allocated + 1⟩)

/-- States that a supply of identities is part of. -/
class Supplied (S : Type) where
  supply : S → Supply
  withSupply : S → Supply → S

instance : Supplied Supply := ⟨id, fun _ supply => supply⟩

/-- Computations that can draw identities for new nodes. -/
class MonadFresh (m : Type → Type) where
  fresh : m NodeId

export MonadFresh (fresh)

instance [Supplied S] : MonadFresh (EStateM ε S) where
  fresh := fun state =>
    let (id, rest) := (Supplied.supply state).draw
    .ok id (Supplied.withSupply state rest)

instance [Supplied S] : MonadFresh (StateM S) where
  fresh := fun state =>
    let (id, rest) := (Supplied.supply state).draw
    (id, Supplied.withSupply state rest)

end QueryOptimizer
