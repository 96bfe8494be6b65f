import QueryOptimizer.Error

/-!
Recursion guards: how deep a recursive computation currently is, and how deep it may get.
-/
namespace QueryOptimizer

structure RecursionGuard where
  depth : Nat := 0
  limit : Nat := 0
  deriving DecidableEq, Repr

namespace RecursionGuard

def withLimit (limit : Nat) : RecursionGuard :=
  { limit }

/-- The guard one level deeper, if the limit allows that. -/
def descend? (guard : RecursionGuard) : Option RecursionGuard :=
  if guard.depth < guard.limit then some { guard with depth := guard.depth + 1 } else none

def ascend (guard : RecursionGuard) : RecursionGuard :=
  { guard with depth := guard.depth - 1 }

end RecursionGuard

/-- States that a recursion guard is part of. -/
class Guarded (S : Type) where
  guardOf : S → RecursionGuard
  withGuard : S → RecursionGuard → S

instance : Guarded RecursionGuard := ⟨id, fun _ guard => guard⟩

/-- Runs `body` one level deeper and comes back up however it ends; at the limit, fails with
`exceeded limit` and does not run it. -/
def checkedRecursion [Guarded S] (exceeded : Nat → ε) (body : EStateM ε S α) : EStateM ε S α :=
  fun state =>
    let ascend (state : S) := Guarded.withGuard state (Guarded.guardOf state).ascend
    match (Guarded.guardOf state).descend? with
    | none => .error (exceeded (Guarded.guardOf state).limit) state
    | some deeper =>
      match body (Guarded.withGuard state deeper) with
      | .ok result state => .ok result (ascend state)
      | .error error state => .error error (ascend state)

end QueryOptimizer
