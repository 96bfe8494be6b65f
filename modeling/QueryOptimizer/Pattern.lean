import Std.Data.ExtTreeSet
import QueryOptimizer.Text.Outline
import QueryOptimizer.Text.Quoted
import QueryOptimizer.Tree.Basic

/-!
Patterns over trees. A pattern is matched against a node in every possible way, and each way binds
the nodes it meets to the keys that the pattern names.
-/
namespace QueryOptimizer

/-- The nodes bound by one match, each under its key, in the order they were bound. -/
structure Bindings (ν : Type) where
  bound : List (String × ν) := []

namespace Bindings
variable {ν : Type}

def empty : Bindings ν := {}

def bind (bindings : Bindings ν) (key : String) (node : ν) : Bindings ν :=
  ⟨bindings.bound ++ [(key, node)]⟩

def bindOptional (bindings : Bindings ν) (key? : Option String) (node : ν) : Bindings ν :=
  match key? with
  | some key => bindings.bind key node
  | none => bindings

/-- Every node bound under `key`, in binding order. -/
def getAll (bindings : Bindings ν) (key : String) : List ν :=
  (bindings.bound.filter fun entry => entry.1 = key).map Prod.snd

/-- The first node bound under `key`. -/
def get? (bindings : Bindings ν) (key : String) : Option ν :=
  (bindings.getAll key).head?

def isEmpty (bindings : Bindings ν) : Bool :=
  bindings.bound.isEmpty

/-- The keys with a node under them, in their order and each once. -/
def keys (bindings : Bindings ν) : List String :=
  (Std.ExtTreeSet.ofList (bindings.bound.map Prod.fst) compare).toList

def outline (nodeOutline : ν → String) (bindings : Bindings ν) : String :=
  Text.setOutline (bindings.keys.map fun key =>
    Text.entryOutline (Text.quote key) (Text.listOutline ((bindings.getAll key).map nodeOutline)))

end Bindings

/-- What a node has to look like, and the keys to bind it and its descendants under. -/
inductive Pattern (ν ω : Type) where
  /-- Any node. -/
  | any (key? : Option String)
  /-- The nodes that pass a test. -/
  | filter (description : String) (test : ν → Bool) (key? : Option String)
  /-- The nodes of one kind, whatever their children. -/
  | operator (kind : ω) (key? : Option String)
  /-- The nodes of one kind whose children match the given patterns one by one. -/
  | exactly (kind : ω) (key? : Option String) (patterns : List (Pattern ν ω))
  /-- The nodes of one kind whose children all match one pattern. -/
  | allChildren (kind : ω) (key? : Option String) (pattern : Pattern ν ω)
  /-- The nodes of one kind, once for every match of one of their children. -/
  | someChild (kind : ω) (key? : Option String) (pattern : Pattern ν ω)

namespace Pattern
variable {ν ω : Type} [Tree ν ω] [DecidableEq ω]

/-- Extends each of the bindings found so far over the nodes, from left to right, unless none is left. -/
def extendOver (extensions : Bindings ν → ν → List (Bindings ν)) :
    List ν → List (Bindings ν) → List (Bindings ν)
  | [], found => found
  | node :: nodes, found =>
    let extended := found.flatMap fun bindings => extensions bindings node
    if extended.isEmpty then [] else extendOver extensions nodes extended

mutual

/-- The bindings of every match against `node`, each extending `outer`. -/
def allMatches : Pattern ν ω → Bindings ν → ν → List (Bindings ν)
  | .any key?, outer, node => [outer.bindOptional key? node]
  | .filter _ test key?, outer, node => if test node then [outer.bindOptional key? node] else []
  | .operator kind key?, outer, node =>
    if Tree.operator node = kind then [outer.bindOptional key? node] else []
  | .exactly kind key? patterns, outer, node =>
    if Tree.operator node = kind ∧ patterns.length = (Tree.children node).length then
      matchEach patterns (Tree.children node) [outer.bindOptional key? node]
    else []
  | .allChildren kind key? pattern, outer, node =>
    if Tree.operator node = kind then
      extendOver (fun bindings child => pattern.allMatches bindings child) (Tree.children node)
        [outer.bindOptional key? node]
    else []
  | .someChild kind key? pattern, outer, node =>
    if Tree.operator node = kind then
      (Tree.children node).flatMap fun child =>
        pattern.allMatches (outer.bindOptional key? node) child
    else []

/-- Extends each of the bindings found so far by every match of each node against its pattern, unless none
is left. -/
def matchEach : List (Pattern ν ω) → List ν → List (Bindings ν) → List (Bindings ν)
  | pattern :: patterns, node :: nodes, found =>
    let extended := found.flatMap fun bindings => pattern.allMatches bindings node
    if extended.isEmpty then [] else matchEach patterns nodes extended
  | _, _, found => found

end

/-- How a key is written in an outline. -/
def keyOutline (key? : Option String) : String :=
  Text.optionOutline (key?.map Text.quote)

/-- The outline of a pattern for one kind of node, given that of what it asks of the children. -/
def operatorPatternOutline (kind : String) (key? : Option String) (children : String) : String :=
  Text.recordOutline "OperatorMatcher"
    [("operator", kind), ("key", keyOutline key?), ("children", children)]

mutual

def outline (operatorOutline : ω → String) : Pattern ν ω → String
  | .any key? => Text.recordOutline "AnyMatcher" [("key", keyOutline key?)]
  | .filter description _ key? =>
    Text.recordOutline "FilterMatcher"
      [("description", Text.quote description), ("key", keyOutline key?)]
  | .operator kind key? => operatorPatternOutline (operatorOutline kind) key? "Ignore"
  | .exactly kind key? patterns =>
    operatorPatternOutline (operatorOutline kind) key?
      (Text.applicationOutline "Exactly" [Text.listOutline (outlineEach operatorOutline patterns)])
  | .allChildren kind key? pattern =>
    operatorPatternOutline (operatorOutline kind) key?
      (Text.applicationOutline "AllChildren" [pattern.outline operatorOutline])
  | .someChild kind key? pattern =>
    operatorPatternOutline (operatorOutline kind) key?
      (Text.applicationOutline "AnyChild" [pattern.outline operatorOutline])

def outlineEach (operatorOutline : ω → String) : List (Pattern ν ω) → List String
  | [] => []
  | pattern :: patterns => pattern.outline operatorOutline :: outlineEach operatorOutline patterns

end

end Pattern
end QueryOptimizer
