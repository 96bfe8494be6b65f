import QueryOptimizer.Identity.Supply

/-!
Numbers that say of each node which one it is: a known node has its index among the known ones, and
the new nodes count down from minus one in the order they are met.
-/
namespace QueryOptimizer

/-- The number of each node, given the new nodes met before. -/
def numberFrom (known : List NodeId) : List NodeId → List NodeId → List Int
  | _, [] => []
  | met, id :: rest =>
    match known.findIdx? (· = id), met.findIdx? (· = id) with
    | some index, _ => (index : Int) :: numberFrom known met rest
    | none, some index => Int.negSucc index :: numberFrom known met rest
    | none, none => Int.negSucc met.length :: numberFrom known (met ++ [id]) rest

/-- The number of each node: the first index among `known`, or a negative number that every occurrence
of the same new node shares. -/
def numberNodes (known ids : List NodeId) : List Int :=
  numberFrom known [] ids

end QueryOptimizer
