import QueryOptimizer.Memo.Correlation

/-!
Renaming the aliases that a graph of references is correlated to. References that refer to no source
alias are kept; every other one is replaced by a new reference, and the old one stays in place for the
parents that still use it.
-/
namespace QueryOptimizer

/-- Reports that a member of `reference` was renamed, and what it became. -/
structure RenamingEvent (ε : Type) where
  reference : ReferenceId
  expression : ε

/-- The state of work on a memo: the memo, the identities for new nodes and members, and the events so
far, in order. -/
structure MemoState (ε : Type) where
  memo : Memo ε := .empty
  supply : Supply := {}
  events : List (RenamingEvent ε) := []

instance : Supplied (MemoState ε) := ⟨MemoState.supply, fun state supply => { state with supply }⟩

abbrev MemoM (ε α : Type) := EStateM MemoError (MemoState ε) α

namespace MemoM
variable {ε : Type}

def ofExcept : Except MemoError α → MemoM ε α
  | .ok result => pure result
  | .error error => throw error

/-- Runs a computation of an expression, which only draws identities. -/
def ofExpression (computation : EStateM Interruption Supply α) : MemoM ε α := fun state =>
  match computation state.supply with
  | .ok result supply => .ok result { state with supply }
  | .error interruption supply => .error (.interrupted interruption) { state with supply }

/-- Changes the memo, or leaves it as it is and fails. -/
def change (edit : Memo ε → Except MemoError (Memo ε)) : MemoM ε Unit := do
  let memo ← ofExcept (edit (← get).memo)
  modify fun state => { state with memo }

def newMember (expression : ε) : MemoM ε (Member ε) :=
  return ⟨← fresh, expression⟩

def insert (stage : PlannerStage) (exploratory finals : List (Member ε)) : MemoM ε ReferenceId :=
  modifyGet fun state =>
    let (id, memo) := state.memo.insert stage exploratory finals
    (id, { state with memo })

/-- Adds a reference in the initial stage with the expression as its only, exploratory member. -/
def insertExpression (expression : ε) : MemoM ε ReferenceId := do
  insert .initial [← newMember expression] []

end MemoM

/-- What each reference visited so far has become. -/
abbrev Renamed := Std.ExtTreeMap ReferenceId ReferenceId

variable {ε : Type} [RelationalExpression ε]

/-- The quantifier over what its reference has become. -/
def renameQuantifier (renamed : Renamed) (quantifier : Quantifier) : Except MemoError Quantifier :=
  match renamed[quantifier.rangesOver]? with
  | some reference => .ok (quantifier.rangingOver reference)
  | none => .error (.missingRenaming quantifier.rangesOver)

/-- Renames a member of `reference`. It stays the same member if it refers to no source itself and its
inputs are unchanged. -/
def renameMember (names : Renaming) (simplifyValues : Bool) (renamed : Renamed)
    (reference : ReferenceId) (member : Member ε) : MemoM ε (Member ε) := do
  let quantifiers := RelationalExpression.quantifiers member.expression
  let inputs ← .ofExcept (quantifiers.mapM (renameQuantifier renamed))
  if inputs = quantifiers ∧
      !names.renamesAny (RelationalExpression.ownCorrelations member.expression) then
    return member
  else do
    let expression ← .ofExpression
      (RelationalExpression.rename names simplifyValues inputs member.expression)
    modify fun state => { state with events := state.events ++ [⟨reference, expression⟩] }
    .newMember expression

/-- Renames the members of the reference called `id`. It stays the same reference if all its members
stay the same. -/
def renameReference (names : Renaming) (simplifyValues : Bool) (renamed : Renamed)
    (id : ReferenceId) : MemoM ε ReferenceId := do
  let reference ← .ofExcept ((← get).memo.find id)
  let pairs ← reference.members.mapM fun member => do
    return (member, ← renameMember names simplifyValues renamed id member)
  if pairs.all fun pair => sameNode pair.1 pair.2 then return id
  else
    let exploratory := pairs.filter fun pair => reference.isExploratory pair.1
    let finals := pairs.filter fun pair => reference.isFinal pair.1
    .insert reference.stage (exploratory.map Prod.snd) (finals.map Prod.snd)

/-- Renames the reference called `id` if it is correlated to a source, and records what it becomes. -/
def renameNext (names : Renaming) (simplifyValues : Bool) (correlations : Correlations)
    (renamed : Renamed) (id : ReferenceId) : MemoM ε Renamed := do
  match correlations[id]? with
  | none => throw (.missingRenaming id)
  | some correlated =>
    if names.renamesAny correlated then
      return renamed.insert id (← renameReference names simplifyValues renamed id)
    else return renamed.insert id id

/-- Renames the given references, and all they range over, so that they refer to the targets of
`names` instead of its sources. Returns what each of them has become, in order. -/
def renameCorrelations (names : Renaming) (simplifyValues : Bool) (ids : List ReferenceId) :
    MemoM ε (List ReferenceId) := do
  let memo := (← get).memo
  let order ← .ofExcept (memo.topologicalOrder ids)
  let correlations ← .ofExcept (memo.correlationsInOrder order)
  let renamed ← order.foldlM (renameNext names simplifyValues correlations) ∅
  ids.mapM fun id =>
    match renamed[id]? with
    | some reference => return reference
    | none => throw (.missingRenaming id)

end QueryOptimizer
