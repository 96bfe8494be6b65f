import Mathlib
import QueryOptimizer.Proofs.Pattern

/-!
Matching lists every way in which a node matches a pattern. A way is told from the others by the children it
picks wherever the pattern leaves the choice, and the ways come in the order of these choices: whatever was
bound before, each of them extends it by the same nodes.
-/
namespace QueryOptimizer

namespace Bindings
variable {ν : Type}

/-- The bindings with more nodes bound after those bound so far. -/
def extend (outer : Bindings ν) (entries : List (String × ν)) : Bindings ν :=
  ⟨outer.bound ++ entries⟩

theorem extend_extend (outer : Bindings ν) (entries more : List (String × ν)) :
    (outer.extend entries).extend more = outer.extend (entries ++ more) := by
  simp only [extend, List.append_assoc]

theorem getAll_extend (outer : Bindings ν) (entries : List (String × ν)) (key : String) :
    (outer.extend entries).getAll key = outer.getAll key ++ (Bindings.mk entries).getAll key := by
  simp only [extend, getAll, List.filter_append, List.map_append]

end Bindings

/-- Where the choices of `one` and `other` first differ, `one` chooses further to the left. -/
def Precedes (one other : List Nat) : Prop :=
  ∃ common left right onward further,
    one = common ++ left :: onward ∧ other = common ++ right :: further ∧ left < right

namespace Precedes
variable {one other : List Nat}

theorem of_lt {left right : Nat} (lower : left < right) (onward further : List Nat) :
    Precedes (left :: onward) (right :: further) :=
  ⟨[], left, right, onward, further, rfl, rfl, lower⟩

theorem append (precedes : Precedes one other) (onward further : List Nat) :
    Precedes (one ++ onward) (other ++ further) := by
  obtain ⟨common, left, right, rest, others, rfl, rfl, lower⟩ := precedes
  exact ⟨common, left, right, rest ++ onward, others ++ further, by simp, by simp, lower⟩

theorem prepend (precedes : Precedes one other) (choices : List Nat) :
    Precedes (choices ++ one) (choices ++ other) := by
  obtain ⟨common, left, right, rest, others, rfl, rfl, lower⟩ := precedes
  exact ⟨choices ++ common, left, right, rest, others, by simp, by simp, lower⟩

theorem ne (precedes : Precedes one other) : one ≠ other := by
  rintro rfl
  obtain ⟨common, left, right, rest, others, first, second, lower⟩ := precedes
  rw [first] at second
  have same : left = right := (List.cons.inj (List.append_cancel_left second)).1
  exact absurd lower (by simp [same])

end Precedes

namespace Pattern
variable {ν ω : Type}

/-- What a pattern with a key binds of the node it is matched against. -/
def own (key? : Option String) (node : ν) : List (String × ν) :=
  (key?.map fun key => (key, node)).toList

theorem bindOptional_eq (outer : Bindings ν) (key? : Option String) (node : ν) :
    outer.bindOptional key? node = outer.extend (own key? node) := by
  cases key? with
  | none => exact congrArg Bindings.mk (List.append_nil _).symm
  | some key => rfl

section Matches
variable [Tree ν ω]

mutual

/-- The node matches the pattern. `choices` says which child was picked wherever it is enough that some child
matches, and `bound` which nodes the parts of the pattern bind to their keys, both from the outside in and
from left to right. -/
inductive Matches : Pattern ν ω → ν → (choices : List Nat) → (bound : List (String × ν)) → Prop where
  | any : Matches (.any key?) node [] (own key? node)
  | filter : test node = true → Matches (.filter description test key?) node [] (own key? node)
  | operator : Tree.operator node = kind → Matches (.operator kind key?) node [] (own key? node)
  | exactly : Tree.operator node = kind → patterns.length = (Tree.children node).length →
      MatchesEach (patterns.zip (Tree.children node)) choices bound →
      Matches (.exactly kind key? patterns) node choices (own key? node ++ bound)
  | allChildren : Tree.operator node = kind →
      MatchesEach ((Tree.children node).map fun child => (pattern, child)) choices bound →
      Matches (.allChildren kind key? pattern) node choices (own key? node ++ bound)
  | someChild : Tree.operator node = kind → (Tree.children node)[choice]? = some child →
      Matches pattern child choices bound →
      Matches (.someChild kind key? pattern) node (choice :: choices) (own key? node ++ bound)

/-- Each of the nodes matches the pattern that it comes with. -/
inductive MatchesEach :
    List (Pattern ν ω × ν) → (choices : List Nat) → (bound : List (String × ν)) → Prop where
  | nil : MatchesEach [] [] []
  | cons : Matches pattern node choices bound → MatchesEach rest others further →
      MatchesEach ((pattern, node) :: rest) (choices ++ others) (bound ++ further)

end

variable {node : ν} {kind : ω} {key? : Option String} {pattern : Pattern ν ω} {choices : List Nat}
variable {bound : List (String × ν)}

theorem matches_any : (any key? : Pattern ν ω).Matches node choices bound ↔ choices = [] ∧ bound = own key? node := by
  constructor
  · rintro ⟨⟩
    exact ⟨rfl, rfl⟩
  · rintro ⟨rfl, rfl⟩
    exact .any

theorem matches_filter {description : String} {test : ν → Bool} :
    (filter description test key? : Pattern ν ω).Matches node choices bound ↔
      test node = true ∧ choices = [] ∧ bound = own key? node := by
  constructor
  · rintro (_ | passes)
    exact ⟨passes, rfl, rfl⟩
  · rintro ⟨passes, rfl, rfl⟩
    exact .filter passes

theorem matches_operator :
    (operator kind key?).Matches node choices bound ↔
      Tree.operator node = kind ∧ choices = [] ∧ bound = own key? node := by
  constructor
  · rintro (_ | _ | same)
    exact ⟨same, rfl, rfl⟩
  · rintro ⟨same, rfl, rfl⟩
    exact .operator same

theorem matches_exactly {patterns : List (Pattern ν ω)} :
    (exactly kind key? patterns).Matches node choices bound ↔
      (Tree.operator node = kind ∧ patterns.length = (Tree.children node).length) ∧
        ∃ further, MatchesEach (patterns.zip (Tree.children node)) choices further ∧
          bound = own key? node ++ further := by
  constructor
  · rintro (_ | _ | _ | ⟨same, size, each⟩)
    exact ⟨⟨same, size⟩, _, each, rfl⟩
  · rintro ⟨⟨same, size⟩, further, each, rfl⟩
    exact .exactly same size each

theorem matches_allChildren :
    (allChildren kind key? pattern).Matches node choices bound ↔ Tree.operator node = kind ∧
      ∃ further, MatchesEach ((Tree.children node).map fun child => (pattern, child)) choices further ∧
        bound = own key? node ++ further := by
  constructor
  · rintro (_ | _ | _ | _ | ⟨same, each⟩)
    exact ⟨same, _, each, rfl⟩
  · rintro ⟨same, further, each, rfl⟩
    exact .allChildren same each

theorem matches_someChild :
    (someChild kind key? pattern).Matches node choices bound ↔ Tree.operator node = kind ∧
      ∃ further, (∃ choice child rest, (Tree.children node)[choice]? = some child ∧ choices = choice :: rest ∧
        pattern.Matches child rest further) ∧ bound = own key? node ++ further := by
  constructor
  · rintro (_ | _ | _ | _ | _ | ⟨same, picked, below⟩)
    exact ⟨same, _, ⟨_, _, _, picked, rfl, below⟩, rfl⟩
  · rintro ⟨same, further, ⟨choice, child, rest, picked, rfl, below⟩, rfl⟩
    exact .someChild same picked below

theorem matchesEach_nil :
    MatchesEach ([] : List (Pattern ν ω × ν)) choices bound ↔ choices = [] ∧ bound = [] := by
  constructor
  · rintro ⟨⟩
    exact ⟨rfl, rfl⟩
  · rintro ⟨rfl, rfl⟩
    exact .nil

theorem matchesEach_cons {rest : List (Pattern ν ω × ν)} :
    MatchesEach ((pattern, node) :: rest) choices bound ↔ ∃ chosen others held further,
      pattern.Matches node chosen held ∧ MatchesEach rest others further ∧ choices = chosen ++ others ∧
        bound = held ++ further := by
  constructor
  · rintro (_ | ⟨first, onward⟩)
    exact ⟨_, _, _, _, first, onward, rfl, rfl⟩
  · rintro ⟨chosen, others, held, further, first, onward, rfl, rfl⟩
    exact .cons first onward

end Matches

/-- The search extends whatever was bound before once for each of the ways that `matched` describes, in the
order of their choices. -/
def Enumerates (search : Bindings ν → List (Bindings ν)) (matched : List Nat → List (String × ν) → Prop) :
    Prop :=
  ∃ ways : List (List Nat × List (String × ν)),
    (∀ outer, search outer = ways.map fun way => outer.extend way.2) ∧
    ways.Pairwise (fun one other => Precedes one.1 other.1) ∧
    ∀ choices bound, (choices, bound) ∈ ways ↔ matched choices bound

namespace Enumerates
variable {search second : Bindings ν → List (Bindings ν)}
variable {matched described : List Nat → List (String × ν) → Prop}

theorem congr (enumerates : Enumerates search matched) (searches : ∀ outer, second outer = search outer)
    (same : ∀ choices bound, described choices bound ↔ matched choices bound) :
    Enumerates second described := by
  obtain ⟨ways, found, ordered, listed⟩ := enumerates
  exact ⟨ways, fun outer => (searches outer).trans (found outer), ordered,
    fun choices bound => (listed choices bound).trans (same choices bound).symm⟩

theorem nothing (none : ∀ choices bound, ¬ matched choices bound) :
    Enumerates (fun _ => ([] : List (Bindings ν))) matched :=
  ⟨[], fun _ => rfl, .nil, fun choices bound => by simpa using none choices bound⟩

theorem single (entries : List (String × ν)) :
    Enumerates (fun outer => [outer.extend entries]) fun choices bound => choices = [] ∧ bound = entries :=
  ⟨[([], entries)], fun _ => rfl, List.pairwise_singleton _ _, fun choices bound => by simp⟩

/-- A search that is made under a condition only. -/
theorem guarded {condition : Prop} [Decidable condition] (enumerates : Enumerates search matched) :
    Enumerates (fun outer => if condition then search outer else [])
      fun choices bound => condition ∧ matched choices bound := by
  by_cases held : condition
  · exact enumerates.congr (fun outer => if_pos held) fun choices bound => and_iff_right held
  · exact (nothing fun _ _ => id).congr (fun outer => if_neg held) fun choices bound =>
      ⟨fun known => held known.1, False.elim⟩

/-- What is bound before a search comes before all that the search binds. -/
theorem after (enumerates : Enumerates search matched) (entries : List (String × ν)) :
    Enumerates (fun outer => search (outer.extend entries))
      fun choices bound => ∃ further, matched choices further ∧ bound = entries ++ further := by
  obtain ⟨ways, found, ordered, listed⟩ := enumerates
  refine ⟨ways.map fun way => (way.1, entries ++ way.2), ?_, ?_, ?_⟩
  · intro outer
    show search (outer.extend entries) = _
    rw [found, List.map_map]
    exact List.map_congr_left fun way _ => outer.extend_extend entries way.2
  · exact List.pairwise_map.mpr ordered
  · intro choices bound
    simp only [List.mem_map, Prod.exists, Prod.mk.injEq, listed]
    constructor
    · rintro ⟨chosen, further, held, rfl, rfl⟩
      exact ⟨further, held, rfl⟩
    · rintro ⟨further, held, rfl⟩
      exact ⟨choices, further, held, rfl, rfl⟩

/-- One search after the other finds every pair of a way of the first and a way of the second. -/
theorem andThen (first : Enumerates search matched) (rest : Enumerates second described) :
    Enumerates (fun outer => (search outer).flatMap second) fun choices bound =>
      ∃ chosen others held further, matched chosen held ∧ described others further ∧
        choices = chosen ++ others ∧ bound = held ++ further := by
  obtain ⟨ways, found, ordered, listed⟩ := first
  obtain ⟨onward, foundNext, orderedNext, listedNext⟩ := rest
  refine ⟨ways.flatMap fun way => onward.map fun next => (way.1 ++ next.1, way.2 ++ next.2), ?_, ?_, ?_⟩
  · intro outer
    show (search outer).flatMap second = _
    rw [found, List.flatMap_map, List.map_flatMap]
    refine List.flatMap_congr fun way _ => ?_
    rw [foundNext, List.map_map]
    exact List.map_congr_left fun next _ => outer.extend_extend way.2 next.2
  · refine List.pairwise_flatMap.mpr ⟨fun way _ => ?_, ordered.imp ?_⟩
    · exact List.pairwise_map.mpr (orderedNext.imp fun precedes => precedes.prepend way.1)
    · intro one other precedes pair early following late
      obtain ⟨next, -, rfl⟩ := List.mem_map.mp early
      obtain ⟨last, -, rfl⟩ := List.mem_map.mp late
      exact precedes.append next.1 last.1
  · intro choices bound
    simp only [List.mem_flatMap, List.mem_map, Prod.exists, Prod.mk.injEq, listed, listedNext]
    constructor
    · rintro ⟨chosen, held, way, others, further, next, rfl, rfl⟩
      exact ⟨chosen, others, held, further, way, next, rfl, rfl⟩
    · rintro ⟨chosen, others, held, further, way, next, rfl, rfl⟩
      exact ⟨chosen, held, way, others, further, next, rfl, rfl⟩

/-- Searching one node after the other finds the ways of each, with its position as their first choice.
The positions are counted from `start`, so that the list may be cut from the front. -/
theorem choose {each : ν → Bindings ν → List (Bindings ν)} {holds : ν → List Nat → List (String × ν) → Prop}
    (nodes : List ν) (enumerates : ∀ node ∈ nodes, Enumerates (each node) (holds node)) (start : Nat) :
    Enumerates (fun outer => nodes.flatMap fun node => each node outer) fun choices bound =>
      ∃ position node rest, nodes[position]? = some node ∧ choices = (start + position) :: rest ∧
        holds node rest bound := by
  induction nodes generalizing start with
  | nil => exact nothing (by simp)
  | cons node nodes ih =>
    obtain ⟨ways, found, ordered, listed⟩ := enumerates node (List.mem_cons_self ..)
    obtain ⟨others, foundOthers, orderedOthers, listedOthers⟩ :=
      ih (fun other member => enumerates other (List.mem_cons_of_mem _ member)) (start + 1)
    refine ⟨ways.map (fun way => (start :: way.1, way.2)) ++ others, ?_, ?_, ?_⟩
    · intro outer
      have onward : nodes.flatMap (fun node => each node outer) = others.map fun way => outer.extend way.2 :=
        foundOthers outer
      show each node outer ++ nodes.flatMap (fun node => each node outer) = _
      rw [found, onward, List.map_append, List.map_map]
      rfl
    · refine List.pairwise_append.mpr ⟨?_, orderedOthers, ?_⟩
      · exact List.pairwise_map.mpr (ordered.imp fun precedes => precedes.prepend [start])
      · rintro _ early ⟨choices, bound⟩ late
        obtain ⟨way, -, rfl⟩ := List.mem_map.mp early
        obtain ⟨position, other, rest, -, rfl, -⟩ := (listedOthers choices bound).mp late
        exact .of_lt (by omega) _ _
    · intro choices bound
      simp only [List.mem_append, List.mem_map, Prod.exists, Prod.mk.injEq, listed, listedOthers]
      constructor
      · rintro (⟨rest, held, way, rfl, rfl⟩ | ⟨position, other, rest, at_position, rfl, way⟩)
        · exact ⟨0, node, rest, rfl, rfl, way⟩
        · exact ⟨position + 1, other, rest, at_position, by rw [Nat.add_right_comm, Nat.add_assoc], way⟩
      · rintro ⟨position, other, rest, at_position, rfl, way⟩
        cases position with
        | zero =>
          obtain rfl := Option.some.inj at_position
          exact .inl ⟨rest, bound, way, rfl, rfl⟩
        | succ position =>
          exact .inr ⟨position, other, rest, at_position, by rw [Nat.add_right_comm, Nat.add_assoc], way⟩

end Enumerates

variable [Tree ν ω] [DecidableEq ω]

theorem matchEach_eq_flatMap (patterns : List (Pattern ν ω)) (nodes : List ν) (found : List (Bindings ν)) :
    matchEach patterns nodes found = found.flatMap fun outer => matchEach patterns nodes [outer] := by
  induction patterns generalizing nodes found with
  | nil => simp [matchEach_nil]
  | cons pattern patterns ih =>
    cases nodes with
    | nil => simp [matchEach]
    | cons node nodes =>
      simp only [matchEach_cons]
      rw [ih, List.flatMap_assoc]
      refine List.flatMap_congr fun outer _ => ?_
      rw [ih, List.flatMap_singleton]

theorem extendOver_eq_flatMap (extensions : Bindings ν → ν → List (Bindings ν)) (nodes : List ν)
    (found : List (Bindings ν)) :
    extendOver extensions nodes found = found.flatMap fun outer => extendOver extensions nodes [outer] := by
  induction nodes generalizing found with
  | nil => simp [extendOver]
  | cons node nodes ih =>
    simp only [extendOver_cons]
    rw [ih, List.flatMap_assoc]
    refine List.flatMap_congr fun outer _ => ?_
    rw [ih, List.flatMap_singleton]

omit [DecidableEq ω] in
/-- A search over no nodes leaves what was bound as it is. -/
theorem enumerates_none_left :
    Enumerates (fun outer => [outer]) (MatchesEach ([] : List (Pattern ν ω × ν))) :=
  (Enumerates.single []).congr (fun outer => by simp [Bindings.extend]) fun _ _ => matchesEach_nil

/-- If the ways of the pattern are listed on each of the nodes, then so are those of matching all of them. -/
theorem enumerates_extendOver (pattern : Pattern ν ω) (nodes : List ν)
    (each : ∀ node ∈ nodes, Enumerates (fun outer => pattern.allMatches outer node) (pattern.Matches node)) :
    Enumerates (fun outer => extendOver (fun outer node => pattern.allMatches outer node) nodes [outer])
      (MatchesEach (nodes.map fun node => (pattern, node))) := by
  induction nodes with
  | nil => exact enumerates_none_left
  | cons node nodes ih =>
    have first := each node (List.mem_cons_self ..)
    have rest := ih fun other member => each other (List.mem_cons_of_mem _ member)
    refine (first.andThen rest).congr (fun outer => ?_) fun _ _ => matchesEach_cons
    rw [extendOver_cons, List.flatMap_singleton, extendOver_eq_flatMap]

mutual

/-- The matches of a pattern are its ways to match, whatever was bound before. -/
theorem enumerates_allMatches (pattern : Pattern ν ω) (node : ν) :
    Enumerates (fun outer => pattern.allMatches outer node) (pattern.Matches node) := by
  have bound (key? : Option String) : Enumerates (fun outer => [outer.bindOptional key? node])
      fun choices bound => choices = [] ∧ bound = own key? node :=
    (Enumerates.single (own key? node)).congr (fun outer => by rw [bindOptional_eq]) fun _ _ => .rfl
  cases pattern with
  | any key? => exact (bound key?).congr (fun outer => by rw [allMatches]) fun _ _ => matches_any
  | filter description test key? =>
    exact (bound key?).guarded.congr (fun outer => by rw [allMatches]) fun _ _ => matches_filter
  | operator kind key? =>
    exact (bound key?).guarded.congr (fun outer => by rw [allMatches]) fun _ _ => matches_operator
  | exactly kind key? patterns =>
    have below := (enumerates_matchEach patterns (Tree.children node)).after (own key? node)
    exact below.guarded.congr (fun outer => by rw [allMatches, bindOptional_eq]) fun _ _ => matches_exactly
  | allChildren kind key? pattern =>
    have below := (enumerates_extendOver pattern (Tree.children node) fun child _ =>
      enumerates_allMatches pattern child).after (own key? node)
    exact below.guarded.congr (fun outer => by rw [allMatches, bindOptional_eq]) fun _ _ => matches_allChildren
  | someChild kind key? pattern =>
    have below := (Enumerates.choose (Tree.children node)
      (fun child _ => enumerates_allMatches pattern child) 0).after (own key? node)
    simp only [Nat.zero_add] at below
    exact below.guarded.congr (fun outer => by rw [allMatches, bindOptional_eq]) fun _ _ => matches_someChild

theorem enumerates_matchEach (patterns : List (Pattern ν ω)) (nodes : List ν) :
    Enumerates (fun outer => matchEach patterns nodes [outer]) (MatchesEach (patterns.zip nodes)) := by
  cases patterns with
  | nil => exact enumerates_none_left.congr (fun outer => matchEach_nil _ _) fun _ _ => .rfl
  | cons pattern patterns =>
    cases nodes with
    | nil => exact enumerates_none_left.congr (fun outer => by simp [matchEach]) fun _ _ => .rfl
    | cons node nodes =>
      have first := enumerates_allMatches pattern node
      have rest := enumerates_matchEach patterns nodes
      refine (first.andThen rest).congr (fun outer => ?_) fun _ _ => matchesEach_cons
      rw [matchEach_cons, List.flatMap_singleton, matchEach_eq_flatMap]

end

/-- Every pattern is matched in each of its ways exactly once, in the order of the choices of children, those
further out first. What was bound before does not matter: under each key it comes before what the way binds. -/
theorem allMatches_lists_every_match (pattern : Pattern ν ω) (node : ν) :
    (∀ outer, List.Forall₂ (fun extended own : Bindings ν => ∀ key,
        extended.getAll key = outer.getAll key ++ own.getAll key)
      (pattern.allMatches outer node) (pattern.allMatches .empty node)) ∧
    ∃ ways : List (List Nat × Bindings ν), pattern.allMatches .empty node = ways.map Prod.snd ∧
      ways.Nodup ∧ ways.Pairwise (fun one other => Precedes one.1 other.1) ∧
      ∀ choices bindings, (choices, bindings) ∈ ways ↔ pattern.Matches node choices bindings.bound := by
  obtain ⟨ways, searched, ordered, listed⟩ := pattern.enumerates_allMatches node
  have found (outer : Bindings ν) : pattern.allMatches outer node = ways.map fun way => outer.extend way.2 :=
    searched outer
  have precedes : (ways.map fun way => (way.1, Bindings.mk way.2)).Pairwise
      fun one other => Precedes one.1 other.1 := List.pairwise_map.mpr ordered
  refine ⟨fun outer => ?_, ways.map fun way => (way.1, Bindings.mk way.2), ?_, ?_, precedes, ?_⟩
  · rw [found, found]
    refine List.forall₂_map_left_iff.mpr (List.forall₂_map_right_iff.mpr (List.forall₂_same.mpr ?_))
    exact fun way _ key => outer.getAll_extend way.2 key
  · rw [found, List.map_map]
    rfl
  · exact precedes.imp fun before same => before.ne (congrArg Prod.fst same)
  · intro choices bindings
    rw [← listed, List.mem_map]
    constructor
    · rintro ⟨way, member, same⟩
      cases same
      exact member
    · exact fun member => ⟨_, member, rfl⟩

end Pattern
end QueryOptimizer
