import QueryOptimizer.Proofs.Memo.Reachability

/-!
The aliases that references are correlated to, as a relation between references and aliases: the tables
that are filled along an order of the references record exactly that relation.
-/
namespace QueryOptimizer
variable {ε : Type} [RelationalExpression ε]

/-- Some quantifier of the expression has the alias `symbol`. -/
def Binds (expression : ε) (symbol : Alias) : Prop :=
  ∃ quantifier ∈ RelationalExpression.quantifiers expression, quantifier.binder = symbol

/-- The expression refers to `symbol`, itself or through an input that does, and does not bind it. -/
def FreeIn (inputs : ReferenceId → Alias → Prop) (expression : ε) (symbol : Alias) : Prop :=
  (symbol ∈ RelationalExpression.ownCorrelations expression ∨
      ∃ quantifier ∈ RelationalExpression.quantifiers expression, inputs quantifier.rangesOver symbol) ∧
    ¬ Binds expression symbol

namespace Memo

/-- `symbol` occurs free in the reference called `id`: in one of its members, or in an input of one that
does not bind it. -/
inductive Free (memo : Memo ε) : ReferenceId → Alias → Prop where
  | own {id : ReferenceId} : memo.get? id = some reference → member ∈ reference.members →
      symbol ∈ RelationalExpression.ownCorrelations member.expression →
      ¬ Binds member.expression symbol → Free memo id symbol
  | inherited {id : ReferenceId} : memo.get? id = some reference → member ∈ reference.members →
      quantifier ∈ RelationalExpression.quantifiers member.expression →
      Free memo quantifier.rangesOver symbol → ¬ Binds member.expression symbol → Free memo id symbol

variable {memo : Memo ε} {id : ReferenceId} {reference : Reference ε} {symbol : Alias}

theorem free_iff (found : memo.get? id = some reference) :
    memo.Free id symbol ↔ ∃ member ∈ reference.members, FreeIn memo.Free member.expression symbol := by
  constructor
  · intro free
    cases free with
    | own same member refers unbound =>
      obtain rfl := Option.some.inj (found.symm.trans same)
      exact ⟨_, member, .inl refers, unbound⟩
    | inherited same member input below unbound =>
      obtain rfl := Option.some.inj (found.symm.trans same)
      exact ⟨_, member, .inr ⟨_, input, below⟩, unbound⟩
  · intro present
    obtain ⟨member, present, refers | ⟨quantifier, input, below⟩, unbound⟩ := present
    · exact .own found present refers unbound
    · exact .inherited found present input below unbound

end Memo

/-- For every reference of `before` the aliases that are free in it are known. -/
def Recorded (memo : Memo ε) (before : List ReferenceId) (known : Correlations) : Prop :=
  ∀ id ∈ before, ∃ correlated, known[id]? = some correlated ∧
    ∀ symbol, symbol ∈ correlated ↔ memo.Free id symbol

theorem mem_foldl_erase (quantifiers : List Quantifier) (free : AliasSet) (symbol : Alias) :
    symbol ∈ quantifiers.foldl (fun free quantifier => free.erase quantifier.binder) free ↔
      symbol ∈ free ∧ ¬ ∃ quantifier ∈ quantifiers, quantifier.binder = symbol := by
  induction quantifiers generalizing free with
  | nil => simp
  | cons quantifier rest ih =>
    rw [List.foldl_cons, ih, Std.ExtTreeSet.mem_erase, Ne, Std.LawfulEqOrd.compare_eq_iff_eq]
    simp only [List.mem_cons, exists_eq_or_imp, not_or]
    exact ⟨fun ⟨⟨other, present⟩, others⟩ => ⟨present, other, others⟩,
      fun ⟨present, other, others⟩ => ⟨⟨other, present⟩, others⟩⟩

/-- The known aliases of all inputs can be joined to those there are. -/
theorem joinInputs_ok {memo : Memo ε} {before : List ReferenceId} {known : Correlations}
    (recorded : Recorded memo before known) (quantifiers : List Quantifier)
    (visited : ∀ quantifier ∈ quantifiers, quantifier.rangesOver ∈ before) (free : AliasSet) :
    ∃ joined, quantifiers.foldlM (fun free quantifier =>
        match known[quantifier.rangesOver]? with
        | some inherited => .ok (free ∪ inherited)
        | none => .error (.missingRenaming quantifier.rangesOver)) free =
          (.ok joined : Except MemoError AliasSet) ∧
      ∀ symbol, symbol ∈ joined ↔
        symbol ∈ free ∨ ∃ quantifier ∈ quantifiers, memo.Free quantifier.rangesOver symbol := by
  induction quantifiers generalizing free with
  | nil => exact ⟨free, rfl, by simp⟩
  | cons quantifier rest ih =>
    obtain ⟨inherited, found, listed⟩ := recorded quantifier.rangesOver (visited quantifier (by simp))
    obtain ⟨joined, continued, described⟩ :=
      ih (fun other member => visited other (by simp [member])) (free ∪ inherited)
    refine ⟨joined, ?_, ?_⟩
    · rw [List.foldlM_cons, found]
      exact continued
    · intro symbol
      rw [described, Std.ExtTreeSet.mem_union_iff, listed]
      simp only [List.mem_cons, exists_eq_or_imp, or_assoc]

theorem correlationsOf_ok {memo : Memo ε} {before : List ReferenceId} {known : Correlations}
    (recorded : Recorded memo before known) (expression : ε)
    (visited : ∀ quantifier ∈ RelationalExpression.quantifiers expression, quantifier.rangesOver ∈ before) :
    ∃ free, correlationsOf known expression = .ok free ∧
      ∀ symbol, symbol ∈ free ↔ FreeIn memo.Free expression symbol := by
  obtain ⟨joined, found, described⟩ := joinInputs_ok recorded _ visited
    (RelationalExpression.ownCorrelations expression)
  refine ⟨(RelationalExpression.quantifiers expression).foldl
    (fun free quantifier => free.erase quantifier.binder) joined, ?_, ?_⟩
  · unfold correlationsOf
    exact congrArg (Except.bind · _) found
  · intro symbol
    rw [mem_foldl_erase, described]
    rfl

/-- The aliases of all members can be joined. -/
theorem joinMembers_ok {memo : Memo ε} {before : List ReferenceId} {known : Correlations}
    (recorded : Recorded memo before known) (members : List (Member ε))
    (visited : ∀ member ∈ members, ∀ quantifier ∈ RelationalExpression.quantifiers member.expression,
      quantifier.rangesOver ∈ before) (correlated : AliasSet) :
    ∃ joined, members.foldlM (fun correlated member => do
        return correlated ∪ (← correlationsOf known member.expression)) correlated =
          (.ok joined : Except MemoError AliasSet) ∧
      ∀ symbol, symbol ∈ joined ↔
        symbol ∈ correlated ∨ ∃ member ∈ members, FreeIn memo.Free member.expression symbol := by
  induction members generalizing correlated with
  | nil => exact ⟨correlated, rfl, by simp⟩
  | cons member rest ih =>
    obtain ⟨free, found, listed⟩ := correlationsOf_ok recorded member.expression (visited member (by simp))
    obtain ⟨joined, continued, described⟩ :=
      ih (fun other present => visited other (by simp [present])) (correlated ∪ free)
    refine ⟨joined, ?_, ?_⟩
    · rw [List.foldlM_cons, found]
      exact continued
    · intro symbol
      rw [described, Std.ExtTreeSet.mem_union_iff, listed]
      simp only [List.mem_cons, exists_eq_or_imp, or_assoc]

namespace Memo
variable {memo : Memo ε} {before order ids : List ReferenceId} {known : Correlations} {id : ReferenceId}

theorem addCorrelations_ok (recorded : Recorded memo before known) {reference : Reference ε}
    (found : memo.get? id = some reference) (visited : ∀ input, memo.RangesOver id input → input ∈ before) :
    ∃ later, memo.addCorrelations known id = .ok later ∧ Recorded memo (before ++ [id]) later := by
  have inputs : ∀ member ∈ reference.members, ∀ quantifier ∈ RelationalExpression.quantifiers member.expression,
      quantifier.rangesOver ∈ before := fun member present quantifier input =>
    visited _ (.of_quantifier found present input)
  obtain ⟨joined, folded, described⟩ := joinMembers_ok recorded reference.members inputs ∅
  refine ⟨known.insert id joined, ?_, ?_⟩
  · simp only [addCorrelations, find_of_get? found]
    exact congrArg (Except.bind · fun correlated => .ok (known.insert id correlated)) folded
  · intro other member
    rw [Std.ExtTreeMap.getElem?_insert]
    simp only [Std.LawfulEqOrd.compare_eq_iff_eq]
    by_cases same : id = other
    · subst same
      refine ⟨joined, if_pos rfl, ?_⟩
      intro symbol
      rw [described, free_iff found]
      simp
    · rw [if_neg same]
      exact recorded other ((List.mem_append.mp member).resolve_right
        fun last => same (List.mem_singleton.mp last).symm)

/-- Along an order that has inputs first, the free aliases of all references become known. -/
theorem correlationsInOrder_ok (complete : ∀ id ∈ order, ∃ reference, memo.get? id = some reference)
    (arranged : DependencyOrder.Arranged memo.RangesOver [] order) :
    ∃ known, memo.correlationsInOrder order = .ok known ∧ Recorded memo order known := by
  suffices general : ∀ before known, Recorded memo before known →
      DependencyOrder.Arranged memo.RangesOver before order →
      ∃ later, order.foldlM memo.addCorrelations known = .ok later ∧ Recorded memo (before ++ order) later from
    general [] ∅ (fun id member => by cases member) arranged
  clear arranged
  induction order with
  | nil => exact fun before known recorded _ => ⟨known, rfl, by rwa [List.append_nil]⟩
  | cons id rest ih =>
    intro before known recorded arranged
    obtain ⟨reference, found⟩ := complete id (by simp)
    cases arranged with
    | cons visited arranged =>
      obtain ⟨middle, added, extended⟩ := addCorrelations_ok recorded found visited
      obtain ⟨later, continued, final⟩ :=
        ih (fun other member => complete other (by simp [member])) _ _ extended arranged
      refine ⟨later, ?_, by rwa [List.append_assoc] at final⟩
      rw [List.foldlM_cons, added]
      exact continued

/-- A reference is correlated to the aliases that are free in it. -/
theorem correlatedTo_ok (grounded : memo.Grounded [id]) :
    ∃ correlated, memo.correlatedTo id = .ok correlated ∧
      ∀ symbol, symbol ∈ correlated ↔ memo.Free id symbol := by
  obtain ⟨order, ordered, -, elements, arranged⟩ := topologicalOrder_ok grounded
  obtain ⟨known, found, recorded⟩ := correlationsInOrder_ok
    (fun other member => grounded.complete other ((elements other).mp member)) arranged
  obtain ⟨correlated, listed, described⟩ :=
    recorded id ((elements id).mpr (.of_mem (List.mem_singleton_self id)))
  refine ⟨correlated, ?_, described⟩
  unfold correlatedTo
  rw [ordered]
  show (memo.correlationsInOrder order).bind (fun known => match known[id]? with
    | some correlated => .ok correlated
    | none => .error (.unknownReference id)) = .ok correlated
  rw [found]
  show (match known[id]? with
    | some correlated => .ok correlated
    | none => .error (.unknownReference id) : Except MemoError AliasSet) = .ok correlated
  rw [listed]

/-- What a reference is correlated to is not known exactly if its graph cannot be ordered. -/
theorem correlatedTo_eq_error_iff {error : MemoError} :
    memo.correlatedTo id = .error error ↔ memo.topologicalOrder [id] = .error error := by
  have fails {error : MemoError} (stopped : memo.topologicalOrder [id] = .error error) :
      memo.correlatedTo id = .error error := by
    unfold correlatedTo
    rw [stopped]
    rfl
  refine ⟨fun failed => ?_, fails⟩
  obtain ⟨order, -, grounded, -⟩ | ⟨other, stopped, -⟩ := memo.topologicalOrder_ends [id]
  · obtain ⟨correlated, found, -⟩ := correlatedTo_ok grounded
    rw [found] at failed
    cases failed
  · obtain rfl := Except.error.inj ((fails stopped).symm.trans failed)
    exact stopped

end Memo
end QueryOptimizer
