import QueryOptimizer.Alias.Renaming
import QueryOptimizer.Error
import QueryOptimizer.Identity.Supply
import QueryOptimizer.Memo.Quantifier

/-!
The memo: an arena of references, each of which groups alternative expressions for the same relation.
Expressions name their inputs by reference, so that references can be shared by any number of parents.
-/
namespace QueryOptimizer

/-- Types of expressions that a memo can hold. -/
class RelationalExpression (ε : Type) where
  /-- The inputs of an expression, in order. -/
  quantifiers : ε → List Quantifier
  /-- The aliases that an expression refers to itself, whatever its inputs are correlated to. -/
  ownCorrelations : ε → AliasSet
  /-- The expression with its aliases renamed, over the given inputs in place of its own. With
  `simplifyValues`, the values it computes may be simplified as well. -/
  rename : Renaming → (simplifyValues : Bool) → List Quantifier → ε → EStateM Interruption Supply ε

inductive MemoError where
  /-- References range over each other in a cycle. -/
  | cyclicGraph
  | unknownReference (id : ReferenceId)
  /-- A reference was visited before a reference it ranges over. -/
  | missingRenaming (id : ReferenceId)
  /-- Renaming a member failed. -/
  | interrupted (interruption : Interruption)
  deriving DecidableEq, Repr

def MemoError.message : MemoError → String
  | cyclicGraph => "graph has cycles"
  | unknownReference id => "unknown reference " ++ id.text
  | missingRenaming id => "no translation for reference " ++ id.text
  | interrupted interruption => interruption.message

/-- How far planning has progressed for a reference. -/
inductive PlannerStage where
  | initial
  | canonical
  | planned
  deriving DecidableEq, Repr

def PlannerStage.outline : PlannerStage → String
  | initial => "Initial"
  | canonical => "Canonical"
  | planned => "Planned"

/-- An expression as a member of references; the same member may belong to several. -/
structure Member (ε : Type) where
  id : NodeId
  expression : ε

instance : Identified (Member ε) := ⟨Member.id⟩

/-- The first occurrence of each member. -/
def distinctMembers : List (Member ε) → List (Member ε)
  | [] => []
  | member :: rest => member :: (distinctMembers rest).filter fun other => !sameNode member other

/-- A group of alternative expressions. Exploratory members are still being searched, final members
have been committed to, and a member may be both. -/
structure Reference (ε : Type) where
  id : ReferenceId
  stage : PlannerStage
  exploratory : List (Member ε)
  finals : List (Member ε)

namespace Reference
variable {ε : Type}

def isExploratory (reference : Reference ε) (member : Member ε) : Bool :=
  reference.exploratory.any (sameNode member)

def isFinal (reference : Reference ε) (member : Member ε) : Bool :=
  reference.finals.any (sameNode member)

/-- Every member once, exploratory members first. -/
def members (reference : Reference ε) : List (Member ε) :=
  distinctMembers (reference.exploratory ++ reference.finals)

def addExploratory (reference : Reference ε) (member : Member ε) : Reference ε :=
  if reference.isExploratory member then reference
  else { reference with exploratory := reference.exploratory ++ [member] }

def addFinal (reference : Reference ε) (member : Member ε) : Reference ε :=
  if reference.isFinal member then reference
  else { reference with finals := reference.finals ++ [member] }

end Reference

/-- The references by identifier. References are never removed, and each goes under an identifier that
was not handed out before. -/
structure Memo (ε : Type) where
  entries : Std.ExtTreeMap ReferenceId (Reference ε) := ∅
  /-- The identifiers not yet handed out. -/
  ids : Supply := {}
  handedOut : ∀ id ∈ entries, id.index < ids.allocated := by simp

namespace Memo
variable {ε : Type}

def empty : Memo ε := {}

def size (memo : Memo ε) : Nat :=
  memo.entries.size

def isEmpty (memo : Memo ε) : Bool :=
  memo.entries.isEmpty

/-- All references, in the order they were inserted. -/
def references (memo : Memo ε) : Array (Reference ε) :=
  memo.entries.valuesArray

def get? (memo : Memo ε) (id : ReferenceId) : Option (Reference ε) :=
  memo.entries[id]?

/-- The reference called `id`; fails if there is none. -/
def find (memo : Memo ε) (id : ReferenceId) : Except MemoError (Reference ε) :=
  match memo.get? id with
  | some reference => .ok reference
  | none => .error (.unknownReference id)

/-- Adds a reference with the given members, under the next identifier. -/
def insert (memo : Memo ε) (stage : PlannerStage) (exploratory finals : List (Member ε)) :
    ReferenceId × Memo ε :=
  let id : ReferenceId := ⟨memo.ids.draw.1.index⟩
  (id, {
    entries := memo.entries.insert id { id, stage, exploratory, finals }
    ids := memo.ids.draw.2
    handedOut := by
      intro other present
      rcases Std.ExtTreeMap.mem_insert.mp present with same | old
      · exact Std.LawfulEqOrd.eq_of_compare same ▸ Nat.lt_succ_self _
      · exact Nat.lt_succ_of_lt (memo.handedOut other old) })

/-- Changes the reference called `id`; fails if there is none. -/
def update (memo : Memo ε) (id : ReferenceId) (change : Reference ε → Reference ε) :
    Except MemoError (Memo ε) :=
  (memo.find id).map fun _ =>
    { memo with
      entries := memo.entries.modify id change
      handedOut := fun other present => memo.handedOut other (Std.ExtTreeMap.mem_modify.mp present) }

/-- Adds an exploratory member, unless it already is one. -/
def addExploratoryMember (memo : Memo ε) (id : ReferenceId) (member : Member ε) :
    Except MemoError (Memo ε) :=
  memo.update id fun reference => reference.addExploratory member

/-- Adds a final member, unless it already is one. -/
def addFinalMember (memo : Memo ε) (id : ReferenceId) (member : Member ε) :
    Except MemoError (Memo ε) :=
  memo.update id fun reference => reference.addFinal member

def setPlannerStage (memo : Memo ε) (id : ReferenceId) (stage : PlannerStage) :
    Except MemoError (Memo ε) :=
  memo.update id fun reference => { reference with stage }

end Memo
end QueryOptimizer
