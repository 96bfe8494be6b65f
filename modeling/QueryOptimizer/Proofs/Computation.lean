import Mathlib
import QueryOptimizer.Error
import QueryOptimizer.Identity.Supply

/-!
What computations with a state come to, and how that is put together from what their parts come to.
Knowledge that only grows while a computation runs is indexed by worlds: what holds in one world holds
in every later one.
-/
namespace QueryOptimizer

/-- Started in `state`, the computation ends with a result and a state that satisfy `returns`, or with
an interruption and a state that satisfy `stops`. -/
def Ends (computation : EStateM ε S α) (state : S) (returns : α → S → Prop)
    (stops : ε → S → Prop) : Prop :=
  match computation state with
  | .ok result after => returns result after
  | .error interruption after => stops interruption after

/-- Started in `state`, the computation ends with a result and a state that satisfy `returns`. -/
abbrev Returns (computation : EStateM ε S α) (state : S) (returns : α → S → Prop) : Prop :=
  Ends computation state returns fun _ _ => False

/-- Started in `state`, the computation returns a result and a state that satisfy `returns` if it
returns at all. -/
abbrev WhenReturns (computation : EStateM ε S α) (state : S) (returns : α → S → Prop) : Prop :=
  Ends computation state returns fun _ _ => True

/-- Started in `state`, the computation ends in a state that satisfies `holds`, with a result or an interruption. -/
abbrev EndsIn (computation : EStateM ε S α) (state : S) (holds : S → Prop) : Prop :=
  Ends computation state (fun _ after => holds after) fun _ after => holds after

namespace Ends
variable {ε S α β : Type} {computation : EStateM ε S α} {state : S}
variable {returns weaker : α → S → Prop} {stops laxer : ε → S → Prop}

theorem mono (ends : Ends computation state returns stops)
    (results : ∀ result after, returns result after → weaker result after)
    (interruptions : ∀ interruption after, stops interruption after → laxer interruption after) :
    Ends computation state weaker laxer := by
  unfold Ends at ends ⊢
  split at ends
  · exact results _ _ ends
  · exact interruptions _ _ ends

theorem imp (ends : Ends computation state returns stops)
    (results : ∀ result after, returns result after → weaker result after) :
    Ends computation state weaker stops :=
  ends.mono results fun _ _ stopped => stopped

/-- A sequence ends as its second part does, started on the result of the first. -/
theorem bind {next : α → EStateM ε S β} {ends : β → S → Prop}
    (first : Ends computation state (fun result after => Ends (next result) after ends stops) stops) :
    Ends (computation >>= next) state ends stops := by
  unfold Ends at first ⊢
  show match (match computation state with
    | .ok result after => next result after
    | .error interruption after => .error interruption after : EStateM.Result ε S β) with
    | .ok result after => ends result after
    | .error interruption after => stops interruption after
  split at first
  · rename_i found
    rw [found]
    exact first
  · rename_i found
    rw [found]
    exact first

theorem pure {result : α} (met : returns result state) :
    Ends (Pure.pure result : EStateM ε S α) state returns stops :=
  met

/-- What is known of an end in two ways holds of one and the same end. -/
theorem and {other : α → S → Prop} {otherStops : ε → S → Prop}
    (one : Ends computation state returns stops) (two : Ends computation state other otherStops) :
    Ends computation state (fun result after => returns result after ∧ other result after)
      (fun interruption after => stops interruption after ∧ otherStops interruption after) := by
  unfold Ends at one two ⊢
  split
  · rename_i found
    simp only [found] at one two
    exact ⟨one, two⟩
  · rename_i found
    simp only [found] at one two
    exact ⟨one, two⟩

theorem returned (ends : Returns computation state returns) :
    ∃ result after, computation state = .ok result after ∧ returns result after := by
  unfold Returns Ends at ends
  split at ends
  · rename_i found
    exact ⟨_, _, found, ends⟩
  · exact False.elim ends

theorem of_eq {result : α} {after : S} (found : computation state = .ok result after)
    (met : returns result after) : Ends computation state returns stops := by
  simpa only [Ends, found] using met

/-- How a computation ends is found out by running it. -/
instance [∀ result after, Decidable (returns result after)]
    [∀ interruption after, Decidable (stops interruption after)] : Decidable (Ends computation state returns stops) :=
  match found : computation state with
  | .ok result after => decidable_of_iff (returns result after) (by simp only [Ends, found])
  | .error interruption after => decidable_of_iff (stops interruption after) (by simp only [Ends, found])

/-- What is known of every end holds of the one that was found. -/
theorem at_ok {result : α} {after : S} (ends : Ends computation state returns stops)
    (found : computation state = .ok result after) : returns result after := by
  simpa only [Ends, found] using ends

theorem at_error {interruption : ε} {after : S} (ends : Ends computation state returns stops)
    (found : computation state = .error interruption after) : stops interruption after := by
  simpa only [Ends, found] using ends

theorem partly (ends : Ends computation state returns stops) : WhenReturns computation state returns :=
  ends.mono (fun _ _ met => met) fun _ _ _ => trivial

end Ends

theorem EndsIn.exists {ε S α : Type} {computation : EStateM ε S α} {state : S} {holds : S → Prop}
    (ends : EndsIn computation state holds) :
    ∃ last, EndsIn computation state (fun after => after = last) ∧ holds last := by
  unfold EndsIn Ends at *
  cases ran : computation state with
  | ok result after => exact ⟨after, rfl, by simpa only [ran] using ends⟩
  | error failure after => exact ⟨after, rfl, by simpa only [ran] using ends⟩

/-- A sequence goes on from where its first part has led. -/
theorem bind_of_ok {ε S α β : Type} {first : EStateM ε S α} {next : α → EStateM ε S β} {state middle : S}
    {result : α} (found : first state = .ok result middle) : (first >>= next) state = next result middle := by
  show EStateM.bind first next state = next result middle
  simp only [EStateM.bind, found]

/-- A sequence stops where its first part does. -/
theorem bind_of_error {ε S α β : Type} {first : EStateM ε S α} {next : α → EStateM ε S β} {state after : S}
    {interruption : ε} (found : first state = .error interruption after) :
    (first >>= next) state = .error interruption after := by
  show EStateM.bind first next state = .error interruption after
  simp only [EStateM.bind, found]

/-- A sequence returns if and only if both of its parts do. -/
theorem bind_eq_ok_iff {ε S α β : Type} {first : EStateM ε S α} {next : α → EStateM ε S β} {state after : S}
    {final : β} :
    (first >>= next) state = .ok final after ↔
      ∃ result middle, first state = .ok result middle ∧ next result middle = .ok final after := by
  constructor
  · intro returned
    cases found : first state with
    | error failure middle =>
      rw [bind_of_error found] at returned
      cases returned
    | ok result middle =>
      rw [bind_of_ok found] at returned
      exact ⟨result, middle, rfl, returned⟩
  · intro returned
    obtain ⟨result, middle, found, ended⟩ := returned
    rw [bind_of_ok found, ended]

/-- It does not matter how a sequence would go on after what its first part does not return. -/
theorem bind_congr_of_whenReturns {ε S α β : Type} {first : EStateM ε S α} {next other : α → EStateM ε S β}
    {state : S} (same : WhenReturns first state fun result after => next result after = other result after) :
    (first >>= next) state = (first >>= other) state := by
  show EStateM.bind first next state = EStateM.bind first other state
  cases found : first state with
  | ok result after => simpa only [EStateM.bind, found] using same.at_ok found
  | error interruption after => simp only [EStateM.bind, found]

/-- A computation may be taken to have been found to return what it returns. -/
theorem whenReturns_iff {ε S α : Type} {computation : EStateM ε S α} {state : S} {returns : α → S → Prop} :
    WhenReturns computation state returns ↔
      ∀ result after, computation state = .ok result after → returns result after := by
  constructor
  · intro ends result after found
    exact ends.at_ok found
  · intro known
    unfold WhenReturns Ends
    split
    · rename_i found
      exact known _ _ found
    · trivial

/-- The world has grown into one that fits the state, and what is known holds there. -/
abbrev Onward {S W : Type} [Preorder W] (fits : W → S → Prop) (world : W) (after : S)
    (known : W → Prop) : Prop :=
  ∃ later, world ≤ later ∧ fits later after ∧ known later

theorem Onward.after {S W : Type} [Preorder W] {fits : W → S → Prop} {world between : W} {after : S}
    {known : W → Prop} (extended : world ≤ between) (onward : Onward fits between after known) :
    Onward fits world after known :=
  let ⟨later, further, fitted, held⟩ := onward
  ⟨later, le_trans extended further, fitted, held⟩

/-- What every result has by its relation to its element, all results have. -/
theorem forall_mem_of_forall₂ {α β : Type} {related : α → β → Prop} {holds : β → Prop} {elements : List α}
    {results : List β} (all : List.Forall₂ related elements results)
    (each : ∀ element result, related element result → holds result) : ∀ result ∈ results, holds result := by
  induction all with
  | nil => exact fun _ member => nomatch member
  | cons first _ ih => exact List.forall_mem_cons.mpr ⟨each _ _ first, ih⟩

/-- Steps over a list that each extend the world: every result holds of its element in the world that
the last step leads to. -/
theorem Ends.mapM {ε S α β W : Type} [Preorder W] {step : α → EStateM ε S β}
    (fits : W → S → Prop) (holds : W → α → β → Prop) {stops : ε → S → Prop}
    (kept : ∀ world later element result, world ≤ later → holds world element result →
      holds later element result)
    (elements : List α)
    (steps : ∀ element ∈ elements, ∀ world state, fits world state →
      Ends (step element) state
        (fun result after => Onward fits world after fun later => holds later element result) stops)
    {world : W} {state : S} (fit : fits world state) :
    Ends (elements.mapM step) state
      (fun results after => Onward fits world after fun later =>
        List.Forall₂ (holds later) elements results) stops := by
  induction elements generalizing world state with
  | nil => exact ⟨world, le_refl world, fit, .nil⟩
  | cons element rest ih =>
    rw [List.mapM_cons]
    refine .bind ((steps element (by simp) world state fit).imp ?_)
    intro result middle ended
    obtain ⟨between, extended, fitted, held⟩ := ended
    refine .bind ((ih (fun other member => steps other (by simp [member])) fitted).imp ?_)
    intro results after ended
    obtain ⟨later, further, final, others⟩ := ended
    exact ⟨later, le_trans extended further, final, .cons (kept _ _ _ _ further held) others⟩

/-- Steps over a list that each keep what fits the state: all results have what every step gives. -/
theorem Ends.mapM_forall {ε S α β : Type} {step : α → EStateM ε S β} {fits : S → Prop} {holds : β → Prop}
    {stops : ε → S → Prop} (elements : List α)
    (steps : ∀ element ∈ elements, ∀ state, fits state →
      Ends (step element) state (fun result after => fits after ∧ holds result) stops)
    {state : S} (fit : fits state) :
    Ends (elements.mapM step) state (fun results after =>
      fits after ∧ results.length = elements.length ∧ ∀ result ∈ results, holds result) stops := by
  induction elements generalizing state with
  | nil => exact ⟨fit, rfl, fun _ absent => nomatch absent⟩
  | cons element rest ih =>
    rw [List.mapM_cons]
    refine .bind ((steps element (List.mem_cons_self ..) state fit).imp ?_)
    intro result middle outcome
    obtain ⟨fitted, held⟩ := outcome
    refine .bind ((ih (fun other member => steps other (List.mem_cons_of_mem _ member)) fitted).imp ?_)
    intro results after others
    obtain ⟨final, size, all⟩ := others
    exact .pure ⟨final, congrArg (· + 1) size, List.forall_mem_cons.mpr ⟨held, all⟩⟩

/-- If the first computation returns from `state`, then the second returns the same from there, in the same
state, and what is known of both holds. -/
def Mirrors {ε S α : Type} (first second : EStateM ε S α) (state : S) (known : α → S → Prop) : Prop :=
  WhenReturns first state fun result after => second state = .ok result after ∧ known result after

namespace Mirrors
variable {ε S α β : Type} {first second : EStateM ε S α} {state : S} {known : α → S → Prop}

theorem refl (ends : WhenReturns first state known) : Mirrors first first state known :=
  whenReturns_iff.mpr fun _ _ found => ⟨found, ends.at_ok found⟩

theorem pure {result : α} (met : known result state) :
    Mirrors (Pure.pure result : EStateM ε S α) (Pure.pure result) state known :=
  refl (.pure met)

theorem of_eq {result : α} {after : S} (found : first state = .ok result after)
    (same : second state = .ok result after) (met : known result after) : Mirrors first second state known :=
  Ends.of_eq found ⟨same, met⟩

/-- What else is known of the first computation is known of both. -/
theorem and {other : α → S → Prop} (mirrors : Mirrors first second state known)
    (ends : WhenReturns first state other) :
    Mirrors first second state fun result after => known result after ∧ other result after :=
  whenReturns_iff.mpr fun _ _ found =>
    ⟨(mirrors.at_ok found).1, (mirrors.at_ok found).2, ends.at_ok found⟩

theorem imp {weaker : α → S → Prop} (mirrors : Mirrors first second state known)
    (results : ∀ result after, known result after → weaker result after) : Mirrors first second state weaker :=
  Ends.imp mirrors fun result after outcome => ⟨outcome.1, results result after outcome.2⟩

theorem bind {next other : α → EStateM ε S β} {ends : β → S → Prop}
    (starts : Mirrors first second state fun result after => Mirrors (next result) (other result) after ends) :
    Mirrors (first >>= next) (second >>= other) state ends := by
  refine Ends.bind (Ends.imp starts ?_)
  rintro result after ⟨same, rest⟩
  refine Ends.imp rest ?_
  rintro final last ⟨found, met⟩
  refine ⟨?_, met⟩
  show EStateM.bind second other state = .ok final last
  simp only [EStateM.bind, same, found]

/-- Steps over a list mirror other steps if each does. -/
theorem mapM {W : Type} [Preorder W] {step other : α → EStateM ε S β} (fits : W → S → Prop)
    (holds : W → α → β → Prop)
    (kept : ∀ world later element result, world ≤ later → holds world element result →
      holds later element result)
    (elements : List α)
    (steps : ∀ element ∈ elements, ∀ world state, fits world state →
      Mirrors (step element) (other element) state
        fun result after => Onward fits world after fun later => holds later element result)
    {world : W} {state : S} (fit : fits world state) :
    Mirrors (elements.mapM step) (elements.mapM other) state fun results after =>
      Onward fits world after fun later => List.Forall₂ (holds later) elements results := by
  induction elements generalizing world state with
  | nil => exact .pure ⟨world, le_refl world, fit, .nil⟩
  | cons element rest ih =>
    rw [List.mapM_cons, List.mapM_cons]
    refine .bind ((steps element (by simp) world state fit).imp ?_)
    rintro result middle ⟨between, extended, fitted, held⟩
    refine .bind ((ih (fun next member => steps next (by simp [member])) fitted).imp ?_)
    rintro results after ⟨later, further, final, others⟩
    exact .pure ⟨later, le_trans extended further, final, .cons (kept _ _ _ _ further held) others⟩

end Mirrors

/-- With any supply that has handed out what `start` has, the computation returns a result that meets
`holds`, and does nothing to the supply but draw from it. -/
def Draws {ε α : Type} (computation : EStateM ε Supply α) (start : Supply) (holds : α → Prop) : Prop :=
  ∀ supply, start.allocated ≤ supply.allocated →
    Returns computation supply fun result after => supply.allocated ≤ after.allocated ∧ holds result

namespace Draws
variable {ε α β : Type} {start : Supply} {computation : EStateM ε Supply α} {holds weaker : α → Prop}

theorem pure {result : α} (held : holds result) :
    Draws (Pure.pure result : EStateM ε Supply α) start holds :=
  fun _ _ => .pure ⟨Nat.le_refl _, held⟩

theorem fresh : Draws (fresh : EStateM ε Supply NodeId) start fun id => start.allocated ≤ id.index :=
  fun _ later => .of_eq rfl ⟨Nat.le_succ _, later⟩

theorem imp (draws : Draws computation start holds) (results : ∀ result, holds result → weaker result) :
    Draws computation start weaker :=
  fun supply later => (draws supply later).imp fun result _ outcome => ⟨outcome.1, results result outcome.2⟩

theorem bind {next : α → EStateM ε Supply β} {ends : β → Prop} (first : Draws computation start holds)
    (rest : ∀ result, holds result → Draws (next result) start ends) :
    Draws (computation >>= next) start ends := by
  intro supply later
  refine .bind ((first supply later).imp ?_)
  intro result between outcome
  refine ((rest result outcome.2) between (Nat.le_trans later outcome.1)).imp ?_
  intro final after reached
  exact ⟨Nat.le_trans outcome.1 reached.1, reached.2⟩

theorem mapM {step : α → EStateM ε Supply β} {each : α → β → Prop} (elements : List α)
    (steps : ∀ element ∈ elements, Draws (step element) start (each element)) :
    Draws (elements.mapM step) start (List.Forall₂ each elements) := by
  induction elements with
  | nil => exact .pure .nil
  | cons element rest ih =>
    rw [List.mapM_cons]
    refine (steps element (by simp)).bind fun result held => ?_
    refine (ih fun other member => steps other (by simp [member])).bind fun results others => ?_
    exact .pure (.cons held others)

end Draws

/-- If the result of each step is taken over only if it is fit, then so are the results of all steps. -/
theorem mapM_settled_iff {ε S α β γ : Type} {step : α → EStateM ε S β} {settle : α → β → EStateM ε S γ}
    {fit : β → Prop} {view : β → γ}
    (settles : ∀ element result final state after,
      settle element result state = .ok final after ↔ fit result ∧ final = view result ∧ after = state)
    (elements : List α) {state after : S} {finals : List γ} :
    elements.mapM (fun element => step element >>= settle element) state = .ok finals after ↔
      ∃ results, elements.mapM step state = .ok results after ∧ (∀ result ∈ results, fit result) ∧
        finals = results.map view := by
  induction elements generalizing state finals after with
  | nil =>
    rw [List.mapM_nil, List.mapM_nil]
    constructor
    · intro returned
      cases returned
      exact ⟨[], rfl, List.forall_mem_nil _, rfl⟩
    · intro stepped
      obtain ⟨results, returned, -, rfl⟩ := stepped
      cases returned
      rfl
  | cons element rest ih =>
    simp only [List.mapM_cons, bind_eq_ok_iff, settles, ih]
    constructor
    · intro returned
      obtain ⟨_, middle, ⟨result, _, found, fits, rfl, rfl⟩, _, last, others, ended⟩ := returned
      obtain ⟨results, ran, fit, rfl⟩ := others
      cases ended
      refine ⟨result :: results, ⟨result, middle, found, results, after, ran, rfl⟩, ?_, rfl⟩
      exact List.forall_mem_cons.mpr ⟨fits, fit⟩
    · intro stepped
      obtain ⟨_, ⟨result, middle, found, results, last, ran, ended⟩, fits, rfl⟩ := stepped
      cases ended
      obtain ⟨fit, others⟩ := List.forall_mem_cons.mp fits
      exact ⟨_, _, ⟨result, middle, found, fit, rfl, rfl⟩, _, _, ⟨results, ran, others, rfl⟩, rfl⟩

/-- What is seen of a computation from outside: its result through a view, or its failure. -/
def observed {ε S α β : Type} (view : α → β) (computation : EStateM ε S α) (state : S) : Except ε β :=
  match computation state with
  | .ok result _ => .ok (view result)
  | .error failure _ => .error failure

section Observation
variable {ε S α β γ δ : Type} {computation : EStateM ε S α} {state after : S}

theorem observed_of_ok {view : α → β} {result : α} (found : computation state = .ok result after) :
    observed view computation state = .ok (view result) := by
  simp only [observed, found]

theorem observed_of_error {view : α → β} {failure : ε} (found : computation state = .error failure after) :
    observed view computation state = .error failure := by
  simp only [observed, found]

/-- What is made of a result before it is seen can be left to the view. -/
theorem observed_bind_pure (inner : α → γ) (outer : γ → β) :
    observed outer (computation >>= fun result => pure (inner result)) state =
      observed (fun result => outer (inner result)) computation state := by
  cases found : computation state with
  | ok result after =>
    have ended : (computation >>= fun result => pure (inner result)) state = .ok (inner result) after :=
      bind_of_ok found
    rw [observed_of_ok found, observed_of_ok ended]
  | error failure after => rw [observed_of_error found, observed_of_error (bind_of_error found)]

theorem observed_map (view : α → β) (change : β → γ) :
    observed (fun result => change (view result)) computation state = change <$> observed view computation state := by
  cases found : computation state with
  | ok result after =>
    rw [observed_of_ok found, observed_of_ok found]
    rfl
  | error failure after =>
    rw [observed_of_error found, observed_of_error found]
    rfl

/-- A sequence is seen to come to the same from two states if its first part is, and if what is seen of the result
tells what is seen in the end. -/
theorem observed_bind_congr {view : α → γ} {last : β → δ} {next : α → EStateM ε S β} {state later : S}
    (first : observed view computation state = observed view computation later)
    (rest : ∀ one other, view one = view other → ∀ state later,
      observed last (next one) state = observed last (next other) later) :
    observed last (computation >>= next) state = observed last (computation >>= next) later := by
  cases found : computation state with
  | ok result after =>
    cases again : computation later with
    | ok other final =>
      rw [observed_of_ok found, observed_of_ok again] at first
      have same := rest result other (Except.ok.inj first) after final
      simp only [observed, bind_of_ok found, bind_of_ok again]
      exact same
    | error failure final =>
      rw [observed_of_ok found, observed_of_error again] at first
      cases first
  | error failure after =>
    cases again : computation later with
    | ok other final =>
      rw [observed_of_error found, observed_of_ok again] at first
      cases first
    | error other final =>
      rw [observed_of_error found, observed_of_error again] at first
      rw [observed_of_error (bind_of_error found), observed_of_error (bind_of_error again)]
      exact congrArg Except.error (Except.error.inj first)

/-- Steps over a list come to what is told of each of them in the states that they keep to. -/
theorem observed_mapM {view : β → γ} {step : α → EStateM ε S β} {told : α → Except ε γ} (fits : S → Prop)
    (elements : List α)
    (keeps : ∀ element ∈ elements, ∀ state, fits state → WhenReturns (step element) state fun _ after => fits after)
    (tells : ∀ element ∈ elements, ∀ state, fits state → observed view (step element) state = told element)
    {state : S} (fit : fits state) :
    observed (List.map view) (elements.mapM step) state = elements.mapM told := by
  induction elements generalizing state with
  | nil => rfl
  | cons element rest ih =>
    rw [List.mapM_cons, List.mapM_cons, ← tells element (by simp) state fit]
    cases found : step element state with
    | error failure after =>
      rw [observed_of_error found, observed_of_error (bind_of_error found)]
      rfl
    | ok result middle =>
      have others := ih (fun other member => keeps other (by simp [member]))
        (fun other member => tells other (by simp [member])) ((keeps element (by simp) state fit).at_ok found)
      rw [observed_of_ok found, ← others]
      cases ran : rest.mapM step middle with
      | error failure after =>
        rw [observed_of_error ran, observed_of_error ((bind_of_ok found).trans (bind_of_error ran))]
        rfl
      | ok results after =>
        rw [observed_of_ok ran, observed_of_ok ((bind_of_ok found).trans (bind_of_ok ran))]
        rfl

end Observation

end QueryOptimizer
