import QueryOptimizer.Proofs.Simplification.Alternatives
import QueryOptimizer.Proofs.Term

/-!
Rules do not interfere with the alternatives of one another: those that a set of rules gives are those that each of
its rules gives alone, in the order of the rules and under the same constraints.
-/
namespace QueryOptimizer

/-- Given are rules of which each answers its calls by nothing but what they say, in sessions in which whatever it
yields exists; and a node that exists. All rules together give what each of them gives alone, in the order of the
rules: alternatives of the same forms under the same constraints, or the failure of the first rule that fails. It does
not matter in which session a rule is applied alone. There are alternatives if and only if every call is answered with
one node at most: all calls are made with no constraint recorded, and each alternative is under the constraint of the
answer that it comes from. Rules that never fail do give alternatives. -/
theorem rules_contribute_alternatives_independently {ν ω σ φ : Type} [Tree ν ω] [DecidableEq ω]
    (environment : Environment) (rules : List (SimplificationRule ν ω σ)) {settled : Set ν → Session σ → Prop}
    (existing : ∀ rule ∈ rules, YieldsExisting settled environment rule) {form : ν → φ}
    (dependent : ∀ rule ∈ rules, DependsOnCall settled environment rule form)
    {current : ν} {nodes : Set ν} {session : Session σ} (settles : settled nodes session) (present : current ∈ nodes) :
    (∀ sessions : SimplificationRule ν ω σ → Session σ,
      (∀ rule ∈ rules, ∃ others, settled others (sessions rule) ∧ current ∈ others) →
        observed (List.map (Constrained.map form)) (simplifyCurrent environment ⟨rules⟩ current) session =
          List.flatten <$> rules.mapM fun rule =>
            observed (List.map (Constrained.map form)) (simplifyCurrent environment ⟨[rule]⟩ current)
              (sessions rule)) ∧
    (∀ alternatives after, simplifyCurrent environment ⟨rules⟩ current session = .ok alternatives after ↔
      ∃ responses, (applications ⟨rules⟩ current).mapM
          (fun application => application.1.action (Call.apart environment current application)) session =
            .ok responses after ∧
        (∀ response ∈ responses, response.results.length ≤ 1) ∧
        alternatives = responses.filterMap (Response.alternative? current)) ∧
    ((∀ rule ∈ rules, NeverFails settled environment rule) →
      ∃ alternatives after, simplifyCurrent environment ⟨rules⟩ current session = .ok alternatives after) := by
  refine ⟨fun sessions settling => ?_, fun _ _ => simplifyCurrent_eq_ok_iff, fun unfailing => ?_⟩
  · let told := observedAlternative? environment form current sessions
    have alone : ∀ rule ∈ rules, List.filterMap id <$> (applications ⟨[rule]⟩ current).mapM told =
        observed (List.map (Constrained.map form)) (simplifyCurrent environment ⟨[rule]⟩ current)
          (sessions rule) := by
      intro rule member
      obtain ⟨others, settles, present⟩ := settling rule member
      have listed : ∀ other ∈ [rule], other ∈ rules := List.forall_mem_singleton.mpr member
      exact (observed_simplifyCurrent (fun other single => existing other (listed other single)) settles present
        (fun other single => dependent other (listed other single))
        fun other single => settling other (listed other single)).symm
    calc observed (List.map (Constrained.map form)) (simplifyCurrent environment ⟨rules⟩ current) session
      _ = List.filterMap id <$> (applications ⟨rules⟩ current).mapM told :=
        observed_simplifyCurrent existing settles present dependent settling
      _ = List.filterMap id <$> List.flatten <$> rules.mapM fun rule =>
            (applications ⟨[rule]⟩ current).mapM told := by
        rw [applications_eq_flatMap, mapM_flatMap]
      _ = List.flatten <$> List.map (List.filterMap id) <$> rules.mapM fun rule =>
            (applications ⟨[rule]⟩ current).mapM told := by
        simp only [Functor.map_map, List.filterMap_flatten]
      _ = _ := by
        rw [map_mapM (List.filterMap id) rules alone]
  · exact simplifyCurrent_returns existing settles present unfailing

namespace Term

/-- The rule that replaces operators called `source` by their first argument. It does so once for each of their
arguments, under a condition that tells of that one. -/
def keepFirst (name source : String) (condition : Term → String) : SimplificationRule Term String Unit where
  name
  pattern := .someChild source none (.any (some "argument"))
  action call := return {
    results := call.current.arguments.head?.toList
    constraint := ((call.bindings.get? "argument").map fun term => .of (.custom (condition term))).getD .none }

variable (environment : Environment) (name source target : String) (condition : Term → String)

theorem keepFirst_yieldsExisting : YieldsExisting Settled environment (keepFirst name source condition) := by
  intro nodes call session called
  refine .of_eq rfl ⟨nodes, subset_rfl, called.settles, fun node member => ?_⟩
  have child : node ∈ call.current.arguments := List.mem_of_mem_head? (Option.mem_toList.mp member)
  exact called.settles.closed call.current called.present node child

theorem keepFirst_dependsOnCall : DependsOnCall Settled environment (keepFirst name source condition) bare :=
  fun _ _ _ _ _ _ _ => rfl

theorem keepFirst_neverFails : NeverFails Settled environment (keepFirst name source condition) := by
  intro nodes call session _
  refine .of_eq rfl ?_
  show (call.current.arguments.head?.toList).length ≤ 1
  cases call.current.arguments.head? <;> simp

theorem rename_dependsOnCall : DependsOnCall Settled environment (rename name source target) bare := by
  intro nodes others call session later called again
  have answers {nodes : Set Term} {session : Session Unit}
      (called : CalledIn Settled environment (rename name source target) nodes call session) :
      observed (Response.seen bare call.current) ((rename name source target).action call) session =
        .ok ([(.apply ⟨0⟩ target (bareEach call.current.arguments), false)], .none) := by
    let node : Term := .apply session.supply.draw.1 target call.current.arguments
    have different : sameNode node call.current = false := called.settles.drawn_different called.present rfl
    show Except.ok ([(bare node, sameNode node call.current)], Constraint.none.compose .none) = _
    rw [different, Constraint.none_compose]
    rfl
  rw [answers called, answers again]

theorem rename_neverFails : NeverFails Settled environment (rename name source target) :=
  fun _ _ _ _ => .of_eq rfl (Nat.le_refl 1)

end Term

/-- Three rules that apply to one operator: two of them keep its first argument, once for each argument, and one
renames it. Four of the five alternatives are one and the same node, each under the condition of its own match. -/
theorem rules_contribute_alternatives_independently_same_argument :
    let rules : List (SimplificationRule Term String Unit) :=
      [Term.keepFirst "A" "f" Term.label, Term.keepFirst "B" "f" fun _ => "only b", Term.rename "ToB" "f" "b"]
    let first : Term := .leaf ⟨0⟩ 1
    let second : Term := .leaf ⟨1⟩ 2
    let root : Term := .apply ⟨2⟩ "f" [first, second]
    let session : Session Unit := ⟨⟨3⟩, ()⟩
    let later : Session Unit := ⟨⟨7⟩, ()⟩
    let view : List (Constrained Term) → List (Constrained Term) := List.map (Constrained.map Term.bare)
    WellFormed root session.supply ∧ WellFormed root later.supply ∧
      (∀ rule ∈ rules, YieldsExisting Term.Settled {} rule ∧ DependsOnCall Term.Settled {} rule Term.bare ∧
        NeverFails Term.Settled {} rule) ∧
      observed view (simplifyCurrent {} ⟨rules⟩ root) session =
        List.flatten <$> (rules.mapM fun rule => observed view (simplifyCurrent {} ⟨[rule]⟩ root) later) ∧
      (∃ alternatives after, simplifyCurrent {} ⟨rules⟩ root session = .ok alternatives after) ∧
      ∃ after, simplifyCurrent {} ⟨rules⟩ root session =
        .ok [⟨first, .of (.custom "1")⟩, ⟨first, .of (.custom "2")⟩, ⟨first, .of (.custom "only b")⟩,
          ⟨first, .of (.custom "only b")⟩, ⟨.apply ⟨3⟩ "b" [first, second], .none⟩] after := by
  intro rules first second root session later view
  have nodes (node : Term) : node ∈ Tree.postOrder root ↔ node = first ∨ node = second ∨ node = root := by
    simp [Tree.postOrder_eq, root, first, second, Tree.children, Term.arguments]
  have formed {supply : Supply} (enough : 3 ≤ supply.allocated) : WellFormed root supply := by
    refine .of (fun node within => ?_) fun one left other right same => ?_
    · rcases (nodes node).mp within with rfl | rfl | rfl <;> exact Nat.lt_of_lt_of_le (by decide) enough
    · rcases (nodes one).mp left with rfl | rfl | rfl <;> rcases (nodes other).mp right with rfl | rfl | rfl <;>
        first | rfl | exact absurd same (by decide)
  have promises : ∀ rule ∈ rules, YieldsExisting Term.Settled {} rule ∧ DependsOnCall Term.Settled {} rule Term.bare ∧
      NeverFails Term.Settled {} rule := by
    simp only [rules, List.forall_mem_cons]
    refine ⟨?_, ?_, ?_, List.forall_mem_nil _⟩
    · exact ⟨Term.keepFirst_yieldsExisting {} _ _ _, Term.keepFirst_dependsOnCall {} _ _ _,
        Term.keepFirst_neverFails {} _ _ _⟩
    · exact ⟨Term.keepFirst_yieldsExisting {} _ _ _, Term.keepFirst_dependsOnCall {} _ _ _,
        Term.keepFirst_neverFails {} _ _ _⟩
    · exact ⟨Term.rename_yieldsExisting {} _ _ _, Term.rename_dependsOnCall {} _ _ _,
        Term.rename_neverFails {} _ _ _⟩
  have settles : Term.Settled {node | node ∈ Tree.postOrder root} session := formed (Nat.le_refl 3)
  obtain ⟨together, gives, returns⟩ := rules_contribute_alternatives_independently {} rules
    (fun rule member => (promises rule member).1) (fun rule member => (promises rule member).2.1)
    settles (Tree.root_mem_postOrder root)
  refine ⟨settles, formed (by decide), promises, ?_, ?_, ?_⟩
  · exact together (fun _ => later) fun _ _ => ⟨_, formed (by decide), Tree.root_mem_postOrder root⟩
  · exact returns fun rule member => (promises rule member).2.2
  · exact ⟨_, (gives _ _).mpr ⟨_, rfl, by decide, rfl⟩⟩

end QueryOptimizer
