import QueryOptimizer.DependencyOrder
import QueryOptimizer.Rule.Basic

/-!
Rule sets: rules in the order in which they are tried, each after the rules it depends on.
-/
namespace QueryOptimizer

structure RuleSet (ν ω α : Type) where
  rules : List (Rule ν ω α)

namespace RuleSet
variable {ν ω α β : Type}

/-- The rules that may apply to a node of the given kind, in order. -/
def candidates [DecidableEq ω] (set : RuleSet ν ω α) (operator : ω) : List (Rule ν ω α) :=
  set.rules.filter fun rule => rule.rootOperator?.all (· = operator)

/-- The first rule of a list with the given name. -/
def ruleNamed? (rules : List (Rule ν ω α)) (name : String) : Option (Rule ν ω α) :=
  rules.find? fun rule => rule.name = name

def names (set : RuleSet ν ω α) : List String :=
  set.rules.map Rule.name

def size (set : RuleSet ν ω α) : Nat :=
  set.rules.length

def isEmpty (set : RuleSet ν ω α) : Bool :=
  set.rules.isEmpty

/-- The set with each rule replaced by what `f` makes of it. -/
def map (f : Rule ν ω α → Rule ν ω β) (set : RuleSet ν ω α) : RuleSet ν ω β :=
  ⟨set.rules.map f⟩

def outline (set : RuleSet ν ω α) : String :=
  Text.listOutline (set.names.map Text.quote)

end RuleSet

/-- Rules in the order they were added, each with the names of the rules it has to come after. -/
structure RuleSetBuilder (ν ω α : Type) where
  entries : List (Rule ν ω α × List String) := []

namespace RuleSetBuilder
variable {ν ω α : Type}

def empty : RuleSetBuilder ν ω α := {}

def addAfter (builder : RuleSetBuilder ν ω α) (rule : Rule ν ω α) (dependencies : List String) :
    RuleSetBuilder ν ω α :=
  ⟨builder.entries ++ [(rule, dependencies)]⟩

def add (builder : RuleSetBuilder ν ω α) (rule : Rule ν ω α) : RuleSetBuilder ν ω α :=
  builder.addAfter rule []

/-- Where the first rule called `name` was added. -/
def position? (builder : RuleSetBuilder ν ω α) (name : String) : Option Nat :=
  builder.entries.findIdx? fun entry => entry.1.name = name

/-- Orders the rule at a position after the first rule that is called `dependency`. -/
def orderAfter (builder : RuleSetBuilder ν ω α) (rule : Rule ν ω α) (position : Nat)
    (order : DependencyOrder Nat) (dependency : String) : Except Error (DependencyOrder Nat) :=
  match builder.position? dependency with
  | some other => .ok (order.addDependency position other)
  | none => .error (.unknownRuleDependency rule.name dependency)

/-- Adds a rule's position and its dependencies to the order of positions. -/
def orderEntry (builder : RuleSetBuilder ν ω α) (order : DependencyOrder Nat)
    (entry : (Rule ν ω α × List String) × Nat) : Except Error (DependencyOrder Nat) :=
  entry.1.2.foldlM (builder.orderAfter entry.1.1 entry.2) (order.addElement entry.2)

/-- The positions of the rules with their dependencies; fails at the first name of no rule. -/
def dependencyOrder (builder : RuleSetBuilder ν ω α) : Except Error (DependencyOrder Nat) :=
  builder.entries.zipIdx.foldlM builder.orderEntry .empty

/-- Takes the rules out of their slots, in the order of `positions`. -/
def takeInOrder : List Nat → List (Option (Rule ν ω α)) → Except Error (List (Rule ν ω α))
  | [], _ => .ok []
  | position :: positions, slots =>
    match slots[position]?.join with
    | none => .error (.internal "rule ordered twice")
    | some rule => (takeInOrder positions (slots.set position none)).map (rule :: ·)

/-- Orders the rules so that each comes after the rules it depends on, and as they were added
otherwise. -/
def build (builder : RuleSetBuilder ν ω α) : Except Error (RuleSet ν ω α) := do
  let order ← builder.dependencyOrder
  match order.topologicalOrder? with
  | none => throw .cyclicRuleDependencies
  | some positions =>
    return ⟨← takeInOrder positions (builder.entries.map fun entry => some entry.1)⟩

def outline (builder : RuleSetBuilder ν ω α) : String :=
  Text.setOutline (builder.entries.map fun entry =>
    Text.entryOutline (Text.quote entry.1.name) (Text.listOutline (entry.2.map Text.quote)))

end RuleSetBuilder
end QueryOptimizer
