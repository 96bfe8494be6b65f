import QueryOptimizer.Proofs.Simplification.Ledger
import QueryOptimizer.Proofs.Tree.Arena
import QueryOptimizer.Simplification.BottomUp

/-!
The drivers under rules whose calls are known. From what one call does to a node follows what a
fixpoint does to it, and from that what simplification does to a tree. Every replacement has to lower
the patience that its node deserves, so that a fixpoint is reached before the patience is over.
-/
namespace QueryOptimizer
variable {ν ω σ W : Type} [Tree ν ω] [Preorder W]

/-- What a call may come to: it leaves the node in place, or replaces it by another. -/
def Verdict (current : ν) (inPlace : Prop) (replaced : Yielded ν → Prop) : Option (Yielded ν) → Prop
  | none => inPlace
  | some yielded =>
    (sameNode yielded.node current = true → inPlace) ∧ (¬ sameNode yielded.node current = true → replaced yielded)

theorem Verdict.mono {current : ν} {inPlace left : Prop} {replaced other : Yielded ν → Prop}
    {yielded? : Option (Yielded ν)} (verdict : Verdict current inPlace replaced yielded?)
    (kept : inPlace → left) (changed : ∀ yielded, replaced yielded → other yielded) :
    Verdict current left other yielded? := by
  cases yielded? with
  | none => exact kept verdict
  | some yielded => exact ⟨fun same => kept (verdict.1 same), fun different => changed _ (verdict.2 different)⟩

/-- What a search for a replacement may come to: all applications left the node in place, or one of
them replaced it. -/
def Finds (pending : List (SimplificationRule ν ω σ × Bindings ν))
    (inPlace : SimplificationRule ν ω σ × Bindings ν → Prop) (replaced : Yielded ν → Prop) :
    Option (String × Yielded ν) → Prop
  | none => ∀ application ∈ pending, inPlace application
  | some replacement => replaced replacement.2

/-- Trying applications in turn finds the first replacement, if there is one. -/
theorem firstReplacement_ends (fits : W → Ledger ν σ → Prop)
    (inPlace : SimplificationRule ν ω σ × Bindings ν → Prop) (replaced : W → Yielded ν → Prop)
    {stops : Interruption → Ledger ν σ → Prop} (environment : Environment) (root current : ν)
    (pending : List (SimplificationRule ν ω σ × Bindings ν))
    (calls : ∀ application ∈ pending, ∀ world ledger, fits world ledger →
      Ends (callRule environment application.1 root current application.2) ledger
        (fun yielded? after => Onward fits world after fun later =>
          Verdict current (inPlace application) (replaced later) yielded?) stops)
    {world : W} {ledger : Ledger ν σ} (fit : fits world ledger) :
    Ends (firstReplacement environment root current pending) ledger
      (fun replacement? after => Onward fits world after fun later =>
        Finds pending inPlace (replaced later) replacement?) stops := by
  induction pending generalizing world ledger with
  | nil => exact ⟨world, le_refl world, fit, fun _ member => nomatch member⟩
  | cons application rest ih =>
    refine .bind ((calls application (by simp) world ledger fit).imp ?_)
    intro yielded? middle ended
    obtain ⟨between, extended, fitted, verdict⟩ := ended
    have goesOn (left : inPlace application) :
        Ends (firstReplacement environment root current rest) middle
          (fun replacement? after => Onward fits world after fun later =>
            Finds (application :: rest) inPlace (replaced later) replacement?) stops := by
      refine (ih (fun other member => calls other (by simp [member])) fitted).imp ?_
      intro replacement? after reached
      obtain ⟨later, further, final, outcome⟩ := reached
      refine ⟨later, le_trans extended further, final, ?_⟩
      cases replacement? with
      | none => exact List.forall_mem_cons.mpr ⟨left, outcome⟩
      | some replacement => exact outcome
    cases yielded? with
    | none => exact goesOn verdict
    | some yielded =>
      by_cases same : sameNode yielded.node current = true
      · simp only [same, if_true]
        exact goesOn (verdict.1 same)
      · simp only [same]
        exact .pure ⟨between, extended, fitted, verdict.2 same⟩

variable [DecidableEq ω]

/-- What a replacement has to be: known to be the like of the node it replaces, and deserving less
patience, unless it is to be explored again. -/
def Advances (setting : Setting ν ω (Call ν → RuleM σ (Response ν))) (keeps again : W → ν → Prop)
    (world : W) (current : ν) (yielded : Yielded ν) : Prop :=
  if yielded.reExplore then again world yielded.node
  else keeps world yielded.node ∧ setting.patience yielded.node < setting.patience current

/-- What is assumed of every call of the rules in a world that fits the ledger: it leaves the node in
place, or advances it. What is known of a node stays known as the world grows. -/
structure Conduct (setting : Setting ν ω (Call ν → RuleM σ (Response ν))) (fits : W → Ledger ν σ → Prop)
    (keeps again : W → ν → Prop) (stops : Interruption → Ledger ν σ → Prop) : Prop where
  kept : ∀ world later node, world ≤ later → keeps world node → keeps later node
  call : ∀ world ledger root current, fits world ledger → keeps world current →
    ∀ application ∈ applications setting.rules current,
      Ends (callRule setting.environment application.1 root current application.2) ledger
        (fun yielded? after => Onward fits world after fun later =>
          ∀ yielded, yielded? = some yielded → ¬ sameNode yielded.node current = true →
            Advances setting keeps again later current yielded)
        stops

/-- The application was called, with all that is assumed of a call, and left the node in place. -/
def TriedInVain (setting : Setting ν ω (Call ν → RuleM σ (Response ν))) (fits : W → Ledger ν σ → Prop)
    (keeps : W → ν → Prop) (node : ν) (application : SimplificationRule ν ω σ × Bindings ν) : Prop :=
  ∃ world ledger root yielded? after, fits world ledger ∧ keeps world node ∧
    callRule setting.environment application.1 root node application.2 ledger = .ok yielded? after ∧
    ∀ yielded, yielded? = some yielded → sameNode yielded.node node = true

/-- No rule that may apply to `node` replaces it. -/
def Idle (setting : Setting ν ω (Call ν → RuleM σ (Response ν))) (fits : W → Ledger ν σ → Prop)
    (keeps : W → ν → Prop) (node : ν) : Prop :=
  ∀ application ∈ applications setting.rules node, TriedInVain setting fits keeps node application

namespace Conduct
variable {setting : Setting ν ω (Call ν → RuleM σ (Response ν))} {fits : W → Ledger ν σ → Prop}
variable {keeps again : W → ν → Prop} {stops : Interruption → Ledger ν σ → Prop}

/-- Trying the applications in turn either finds a replacement, or tries all of them in vain. -/
theorem firstReplacement (conduct : Conduct setting fits keeps again stops) (root current : ν)
    {world : W} {ledger : Ledger ν σ} (fit : fits world ledger) (keep : keeps world current) :
    Ends (firstReplacement setting.environment root current (applications setting.rules current)) ledger
      (fun replacement? after => Onward (fun world ledger => fits world ledger ∧ keeps world current) world
        after fun later => Finds (applications setting.rules current)
          (TriedInVain setting fits keeps current) (Advances setting keeps again later current) replacement?)
      stops := by
  refine firstReplacement_ends _ _ _ setting.environment root current _ ?_ ⟨fit, keep⟩
  rintro application member world ledger ⟨fit, keep⟩
  have called : WhenReturns (callRule setting.environment application.1 root current application.2) ledger
      fun yielded? after =>
        callRule setting.environment application.1 root current application.2 ledger = .ok yielded? after :=
    whenReturns_iff.mpr fun _ _ found => found
  have known := conduct.call world ledger root current fit keep application member
  refine (known.and called).mono ?_ fun _ _ stopped => stopped.1
  intro yielded? after ended
  obtain ⟨⟨later, extended, fitted, replaced⟩, found⟩ := ended
  refine ⟨later, extended, ⟨fitted, conduct.kept _ _ _ extended keep⟩, ?_⟩
  have vain (left : ∀ yielded, yielded? = some yielded → sameNode yielded.node current = true) :
      TriedInVain setting fits keeps current application :=
    ⟨world, ledger, root, yielded?, after, fit, keep, found, left⟩
  cases yielded? with
  | none => exact vain (by simp)
  | some yielded => exact ⟨fun same => vain (by simpa using same), replaced yielded rfl⟩

/-- One replacement keeps what is known of the node, and leads on with less patience to need. -/
theorem replaceThen (conduct : Conduct setting fits keeps again stops) (root : ν) (outermost : Bool)
    (next : ν → Run ν σ (Outcome ν)) (current : ν) {returns : W → Outcome ν → Prop}
    (finished : ∀ world, keeps world current → Idle setting fits keeps current →
      returns world ⟨current, none⟩)
    (explored : ∀ world node rule, again world node → returns world ⟨node, some rule⟩)
    (goes : ∀ world ledger node, fits world ledger → keeps world node →
      setting.patience node < setting.patience current →
      Ends (next node) ledger
        (fun outcome after => Onward fits world after fun later => returns later outcome) stops)
    {world : W} {ledger : Ledger ν σ} (fit : fits world ledger) (keep : keeps world current) :
    Ends (replaceThen setting.environment setting.rules root outermost next current) ledger
      (fun outcome after => Onward fits world after fun later => returns later outcome) stops := by
  refine .bind ((conduct.firstReplacement _ current fit keep).imp ?_)
  intro replacement? middle ended
  obtain ⟨between, extended, ⟨fitted, keep⟩, outcome⟩ := ended
  cases replacement? with
  | none => exact .pure ⟨between, extended, fitted, finished between keep outcome⟩
  | some replacement =>
    obtain ⟨rule, yielded⟩ := replacement
    by_cases asked : yielded.reExplore = true
    · simp only [Finds, Advances, asked, if_true] at outcome ⊢
      exact .pure ⟨between, extended, fitted, explored between _ rule outcome⟩
    · simp only [Finds, Advances, asked] at outcome ⊢
      exact (goes between middle yielded.node fitted outcome.1 outcome.2).imp fun _ _ reached =>
        reached.after extended

/-- What a fixpoint comes to: a node with all rules idle, or one that is to be explored again. -/
def Reaches (setting : Setting ν ω (Call ν → RuleM σ (Response ν))) (fits : W → Ledger ν σ → Prop)
    (keeps again : W → ν → Prop) (world : W) (outcome : Outcome ν) : Prop :=
  match outcome.reExploredBy with
  | none => keeps world outcome.node ∧ Idle setting fits keeps outcome.node
  | some _ => again world outcome.node

/-- Replacements in a row reach a fixpoint within the patience that the first node deserves. -/
theorem replaceRepeatedly (conduct : Conduct setting fits keeps again stops) (root : ν) (outermost : Bool)
    (steps : Nat) (current : ν) (enough : setting.patience current ≤ steps)
    {world : W} {ledger : Ledger ν σ} (fit : fits world ledger) (keep : keeps world current) :
    Ends (replaceRepeatedly setting.environment setting.rules root outermost steps current) ledger
      (fun outcome after => Onward fits world after fun later =>
        Reaches setting fits keeps again later outcome) stops := by
  induction steps generalizing current world ledger with
  | zero =>
    refine conduct.replaceThen root outermost _ current (fun _ keep idle => ⟨keep, idle⟩)
      (fun _ _ _ asked => asked) ?_ fit keep
    intro _ _ node _ _ lower
    omega
  | succ steps ih =>
    refine conduct.replaceThen root outermost _ current (fun _ keep idle => ⟨keep, idle⟩)
      (fun _ _ _ asked => asked) ?_ fit keep
    intro _ _ node fit keep lower
    exact ih node (by omega) fit keep

theorem fixpoint (conduct : Conduct setting fits keeps again stops) (root current : ν)
    {world : W} {ledger : Ledger ν σ} (fit : fits world ledger) (keep : keeps world current) :
    Ends (fixpoint setting root current) ledger
      (fun outcome after => Onward fits world after fun later =>
        Reaches setting fits keeps again later outcome) stops :=
  conduct.replaceRepeatedly root _ _ current (le_refl _) fit keep

end Conduct

section Simplify
variable (setting : Setting ν ω (Call ν → RuleM σ (Response ν))) (fits : W → Ledger ν σ → Prop)
variable (holds : W → ν → ν → Prop)

/-- Simplification of a tree by rules that never ask for re-exploration. What a node has to do with the original
one at its place is made out when the node is rebuilt, kept by every call of a rule, and settled once all rules
are idle. -/
theorem simplify_finishes (done : W → ν → ν → Prop) (root : ν)
    (kept : ∀ world later original node, world ≤ later → done world original node → done later original node)
    (rebuilt : ∀ world (ledger : Ledger ν σ) node mapped, fits world ledger → node ∈ Tree.postOrder root →
      List.Forall₂ (done world) (Tree.children node) mapped →
      Returns (Tree.rebuild node mapped : Run ν σ ν) ledger
        (fun current after => Onward fits world after fun later => holds later node current))
    (conduct : ∀ original, Conduct setting fits (fun world node => holds world original node)
      (fun _ _ => False) (fun _ _ => False))
    (finishes : ∀ world original node, holds world original node →
      Idle setting fits (fun world node => holds world original node) node → done world original node)
    {world : W} {session : Session σ} (fit : fits world { toSession := session }) :
    Returns (simplify setting root) session (fun simplified after =>
      ∃ later constraints, world ≤ later ∧ fits later { toSession := after, constraints } ∧
        done later root simplified.value ∧
        simplified.constraint = collectConstraints constraints simplified.value) := by
  refine .bind (onFreshLedger_ends ?_)
  refine (Tree.mapPostOrder_ends fits done kept root ?_ fit).imp ?_
  · intro original within world ledger mapped fit below
    refine .bind ((rebuilt world ledger original mapped fit within below).imp ?_)
    intro current middle ended
    obtain ⟨between, extended, fitted, held⟩ := ended
    refine .bind (((conduct original).fixpoint _ current fitted held).imp ?_)
    rintro ⟨result, reExploredBy⟩ after ⟨later, further, final, outcome⟩
    cases reExploredBy with
    | none => exact .pure ⟨later, le_trans extended further, final, finishes _ _ _ outcome.1 outcome.2⟩
    | some rule => exact False.elim outcome
  · intro result after ended
    obtain ⟨later, extended, fitted, held⟩ := ended
    exact .pure ⟨later, after.constraints, extended, fitted, held, rfl⟩

/-- If rebuilding a node and every call of a rule keep what a node has to do with the original one at its place,
then so does the run. -/
theorem simplify_returns (root : ν)
    (kept : ∀ world later original node, world ≤ later → holds world original node →
      holds later original node)
    (rebuilt : ∀ world (ledger : Ledger ν σ) node mapped, fits world ledger → node ∈ Tree.postOrder root →
      List.Forall₂ (holds world) (Tree.children node) mapped →
      Returns (Tree.rebuild node mapped : Run ν σ ν) ledger
        (fun current after => Onward fits world after fun later => holds later node current))
    (conduct : ∀ original, Conduct setting fits (fun world node => holds world original node)
      (fun _ _ => False) (fun _ _ => False))
    {world : W} {session : Session σ} (fit : fits world { toSession := session }) :
    Returns (simplify setting root) session (fun simplified after =>
      ∃ later constraints, world ≤ later ∧ fits later { toSession := after, constraints } ∧
        holds later root simplified.value ∧
        simplified.constraint = collectConstraints constraints simplified.value) :=
  simplify_finishes setting fits holds holds root kept rebuilt conduct (fun _ _ _ held _ => held) fit

end Simplify
end QueryOptimizer
