import Mathlib
import QueryOptimizer.Alias.Equality

/-!
What is recorded about equal aliases. In whatever order pairs of aliases are equated, aliases are equal if and
only if the pairs connect them, and every alias of a pair has its whole class for its entry.
-/
namespace QueryOptimizer.AliasEquality

/-- What equating the pairs, one after the other, leads to. -/
def ofPairs (pairs : List (Alias × Alias)) : AliasEquality :=
  pairs.foldl (fun equality pair => equality.equate pair.1 pair.2) empty

/-- The pairs lead from one alias to the other, in any number of steps and in either direction: the least
equivalence that relates the aliases of each pair. -/
def Connected (pairs : List (Alias × Alias)) : Alias → Alias → Prop :=
  Relation.EqvGen fun left right => (left, right) ∈ pairs

def Mentioned (pairs : List (Alias × Alias)) (symbol : Alias) : Prop :=
  ∃ other, (symbol, other) ∈ pairs ∨ (other, symbol) ∈ pairs

/-- Whether two aliases are related once `left` and `right` are. -/
def Joined (related : Alias → Alias → Prop) (left right one other : Alias) : Prop :=
  related one other ∨ (related left one ∨ related right one) ∧ (related left other ∨ related right other)

/-- The entries are the classes of an equivalence, and exactly the listed aliases have one. No other alias is
related to any but itself. -/
structure Classifies (equality : AliasEquality) (listed : Alias → Prop) (related : Alias → Alias → Prop) :
    Prop where
  equivalence : Equivalence related
  entry : ∀ symbol members, equality.classes[symbol]? = some members →
    ∀ other, other ∈ members ↔ related symbol other
  listed_iff : ∀ symbol, equality.classes[symbol]?.isSome = true ↔ listed symbol
  single : ∀ symbol other, equality.classes[symbol]? = none → related symbol other → other = symbol

variable {pairs others : List (Alias × Alias)} {left right one other symbol : Alias}
variable {equality twin : AliasEquality} {listed : Alias → Prop} {related : Alias → Alias → Prop}

section Connected

theorem Connected.equivalence (pairs : List (Alias × Alias)) : Equivalence (Connected pairs) :=
  Relation.EqvGen.is_equivalence _

theorem Connected.of_mem (member : (left, right) ∈ pairs) : Connected pairs left right :=
  .rel _ _ member

/-- Whatever equivalence relates the aliases of each pair relates all that the pairs connect. -/
theorem Connected.minimal (connected : Connected pairs one other) (equivalence : Equivalence related)
    (each : ∀ left right, (left, right) ∈ pairs → related left right) : related one other :=
  equivalence.eqvGen_iff.mp (Relation.EqvGen.mono each one other connected)

theorem connected_nil : Connected [] = Eq := by
  funext one other
  refine propext ⟨fun connected => ?_, fun same => same ▸ (Connected.equivalence []).refl one⟩
  exact connected.minimal eq_equivalence fun left right absent => absurd absent (List.not_mem_nil)

/-- More pairs, whichever way round, connect more aliases. -/
theorem Connected.mono (connected : Connected pairs one other)
    (recorded : ∀ left right, (left, right) ∈ pairs → (left, right) ∈ others ∨ (right, left) ∈ others) :
    Connected others one other := by
  refine connected.minimal (Connected.equivalence others) fun left right member => ?_
  exact (recorded left right member).elim .of_mem fun turned => (Connected.equivalence others).symm (.of_mem turned)

theorem Joined.equivalence (equivalence : Equivalence related) (left right : Alias) :
    Equivalence (Joined related left right) := by
  have along {one other : Alias} (same : related one other) (joined : related left one ∨ related right one) :
      related left other ∨ related right other :=
    joined.imp (equivalence.trans · same) (equivalence.trans · same)
  refine ⟨fun symbol => .inl (equivalence.refl symbol), ?_, ?_⟩
  · rintro one other (same | ⟨first, second⟩)
    · exact .inl (equivalence.symm same)
    · exact .inr ⟨second, first⟩
  · rintro one other another (same | ⟨first, second⟩) (further | ⟨third, fourth⟩)
    · exact .inl (equivalence.trans same further)
    · exact .inr ⟨along (equivalence.symm same) third, fourth⟩
    · exact .inr ⟨first, along further second⟩
    · exact .inr ⟨first, fourth⟩

/-- The pair that is recorded last joins two classes. -/
theorem connected_append_singleton :
    Connected (pairs ++ [(left, right)]) = Joined (Connected pairs) left right := by
  funext one other
  have equivalence := Connected.equivalence (pairs ++ [(left, right)])
  refine propext ⟨fun connected => ?_, fun joined => ?_⟩
  · refine connected.minimal (Joined.equivalence (Connected.equivalence pairs) left right) ?_
    intro one other recorded
    rcases List.mem_append.mp recorded with earlier | last
    · exact .inl (.of_mem earlier)
    · obtain ⟨rfl, rfl⟩ := Prod.mk.inj (List.mem_singleton.mp last)
      exact .inr ⟨.inl (.refl _), .inr (.refl _)⟩
  · have kept {one other : Alias} (connected : Connected pairs one other) :
        Connected (pairs ++ [(left, right)]) one other :=
      connected.mono fun _ _ recorded => .inl (List.mem_append_left _ recorded)
    have added : Connected (pairs ++ [(left, right)]) left right :=
      .of_mem (List.mem_append_right _ (List.mem_singleton_self _))
    have reached {symbol : Alias} (joined : Connected pairs left symbol ∨ Connected pairs right symbol) :
        Connected (pairs ++ [(left, right)]) left symbol :=
      joined.elim kept fun same => equivalence.trans added (kept same)
    rcases joined with same | ⟨first, second⟩
    · exact kept same
    · exact equivalence.trans (equivalence.symm (reached first)) (reached second)

end Connected

/-- One entry, written for each of the given aliases. -/
theorem getElem?_foldl_insert (symbols : List Alias) (members : AliasSet)
    (classes : Std.ExtTreeMap Alias AliasSet) (symbol : Alias) :
    (symbols.foldl (fun classes member => classes.insert member members) classes)[symbol]? =
      if symbol ∈ symbols then some members else classes[symbol]? := by
  induction symbols generalizing classes with
  | nil => simp
  | cons first rest ih =>
    rw [List.foldl_cons, ih, Std.ExtTreeMap.getElem?_insert]
    simp only [Std.LawfulEqOrd.compare_eq_iff_eq, List.mem_cons, eq_comm (a := first)]
    split <;> simp [*]

/-- Equating two aliases writes their merged class for each of its members, and leaves every other entry. -/
theorem getElem?_equate (equality : AliasEquality) (left right : Alias) :
    ∃ merged : AliasSet,
      (∀ symbol, symbol ∈ merged ↔
        (left = symbol ∨ symbol ∈ equality.classOf left) ∨ right = symbol ∨ symbol ∈ equality.classOf right) ∧
      ∀ symbol, (equality.equate left right).classes[symbol]? =
        if symbol ∈ merged then some merged else equality.classes[symbol]? := by
  refine ⟨((equality.classOf left ∪ equality.classOf right).insert left).insert right, fun symbol => ?_,
    fun symbol => ?_⟩
  · simp only [Std.ExtTreeSet.mem_insert, Std.ExtTreeSet.mem_union_iff, Std.LawfulEqOrd.compare_eq_iff_eq]
    grind
  · simp only [equate]
    rw [Std.ExtTreeSet.foldl_eq_foldl_toList, getElem?_foldl_insert]
    simp only [Std.ExtTreeSet.mem_toList]
    split
    · rfl
    · rename_i outside
      -- The entries that were taken out are those of two members, which have been written again.
      have different : left ≠ symbol ∧ right ≠ symbol := by
        simp only [Std.ExtTreeSet.mem_insert, Std.LawfulEqOrd.compare_eq_iff_eq, not_or] at outside
        exact ⟨outside.2.1, outside.1⟩
      simp [Std.ExtTreeMap.getElem?_erase, different]

namespace Classifies

/-- What an alias is related to is the class recorded for it, and the alias itself. -/
theorem related_iff (classifies : Classifies equality listed related) :
    related one other ↔ one = other ∨ other ∈ equality.classOf one := by
  have reflexive := classifies.equivalence.refl one
  unfold classOf
  cases found : equality.classes[one]? with
  | none =>
    simp only [Option.getD_none, Std.ExtTreeSet.not_mem_empty, or_false]
    exact ⟨fun same => (classifies.single one other found same).symm, fun same => same ▸ reflexive⟩
  | some members =>
    simp only [Option.getD_some, classifies.entry one members found]
    exact ⟨.inr, fun same => same.elim (fun same => same ▸ reflexive) id⟩

theorem areEqual_iff (classifies : Classifies equality listed related) :
    equality.areEqual one other = true ↔ related one other := by
  rw [classifies.related_iff, areEqual, Bool.or_eq_true, decide_eq_true_iff, Std.ExtTreeSet.contains_iff_mem]

theorem getElem?_eq_some_iff (classifies : Classifies equality listed related) {members : AliasSet} :
    equality.classes[symbol]? = some members ↔
      listed symbol ∧ ∀ other, other ∈ members ↔ related symbol other := by
  refine ⟨fun found => ⟨?_, classifies.entry symbol members found⟩, fun ⟨present, whole⟩ => ?_⟩
  · exact (classifies.listed_iff symbol).mp (found ▸ rfl)
  · obtain ⟨recorded, found⟩ := Option.isSome_iff_exists.mp ((classifies.listed_iff symbol).mpr present)
    rw [found, Option.some_inj]
    refine Std.ExtTreeSet.ext_mem fun other => ?_
    rw [classifies.entry symbol recorded found, whole]

/-- There is one way only to keep the classes of an equivalence. -/
theorem unique (classifies : Classifies equality listed related) (also : Classifies twin listed related) :
    equality = twin := by
  obtain ⟨classes⟩ := equality
  obtain ⟨others⟩ := twin
  refine congrArg AliasEquality.mk (Std.ExtTreeMap.ext_getElem? fun {symbol} => Option.ext fun members => ?_)
  exact classifies.getElem?_eq_some_iff.trans also.getElem?_eq_some_iff.symm

/-- Equating two aliases makes the classes those of the equivalence in which the two are related as well. -/
theorem equate (classifies : Classifies equality listed related) (left right : Alias) :
    Classifies (equality.equate left right) (fun symbol => listed symbol ∨ symbol = left ∨ symbol = right)
      (Joined related left right) := by
  have equivalence := classifies.equivalence
  obtain ⟨merged, members, classes⟩ := getElem?_equate equality left right
  simp only [← classifies.related_iff] at members
  refine ⟨Joined.equivalence classifies.equivalence left right, ?_, ?_, ?_⟩
  · intro symbol found recorded other
    rw [classes] at recorded
    split at recorded
    · rename_i inside
      obtain rfl := Option.some.inj recorded
      have reached := (members symbol).mp inside
      rw [members]
      refine ⟨fun joined => .inr ⟨reached, joined⟩, fun joined => joined.elim (fun same => ?_) And.right⟩
      exact reached.imp (equivalence.trans · same) (equivalence.trans · same)
    · rename_i outside
      have apart := mt (members symbol).mpr outside
      rw [classifies.entry symbol found recorded]
      exact ⟨.inl, fun joined => joined.elim id fun reached => absurd reached.1 apart⟩
  · intro symbol
    have alone {origin : Alias} (absent : equality.classes[symbol]? = none) (same : related origin symbol) :
        symbol = origin :=
      (classifies.single symbol origin absent (equivalence.symm same)).symm
    rw [classes, ← classifies.listed_iff]
    split
    · rename_i inside
      refine iff_of_true rfl (or_iff_not_imp_left.mpr fun unlisted => ?_)
      have absent := Option.not_isSome_iff_eq_none.mp unlisted
      exact ((members symbol).mp inside).imp (alone absent) (alone absent)
    · rename_i outside
      have apart := mt (members symbol).mpr outside
      refine ⟨.inl, fun listed => listed.resolve_right ?_⟩
      rintro (rfl | rfl)
      · exact apart (.inl (equivalence.refl symbol))
      · exact apart (.inr (equivalence.refl symbol))
  · intro symbol other absent joined
    rw [classes] at absent
    split at absent
    · cases absent
    · rename_i outside
      have apart := mt (members symbol).mpr outside
      exact classifies.single symbol other absent (joined.resolve_right fun reached => apart reached.1)

end Classifies

theorem classifies_empty : Classifies empty (fun _ => False) (Eq (α := Alias)) where
  equivalence := eq_equivalence
  entry symbol members recorded := by simp [empty] at recorded
  listed_iff symbol := by simp [empty]
  single symbol other _ same := same.symm

/-- The entries that equating pairs leads to are the classes of what the pairs connect. -/
theorem classifies_ofPairs (pairs : List (Alias × Alias)) :
    Classifies (ofPairs pairs) (Mentioned pairs) (Connected pairs) := by
  induction pairs using List.reverseRecOn with
  | nil =>
    have unmentioned : Mentioned [] = fun _ => False := by
      funext symbol
      simp [Mentioned]
    rw [connected_nil, unmentioned]
    exact classifies_empty
  | append_singleton pairs pair ih =>
    obtain ⟨left, right⟩ := pair
    have equated : ofPairs (pairs ++ [(left, right)]) = (ofPairs pairs).equate left right := by
      rw [ofPairs, List.foldl_append]
      rfl
    have mentioned : Mentioned (pairs ++ [(left, right)]) =
        fun symbol => Mentioned pairs symbol ∨ symbol = left ∨ symbol = right := by
      funext symbol
      simp only [Mentioned, List.mem_append, List.mem_singleton, Prod.mk.injEq]
      grind
    rw [equated, mentioned, connected_append_singleton]
    exact ih.equate left right

/-- Once pairs of aliases were equated, one after the other, two aliases are equal if and only if they are the same
or the pairs connect them. The aliases of the pairs, and no others, have an entry, which is the set of all aliases
that the pairs connect them to. Neither the order of the pairs, nor that of the aliases within one, nor a repeated
pair makes a difference to what is recorded. -/
theorem areEqual_iff_connected (pairs : List (Alias × Alias)) :
    (∀ left right, (ofPairs pairs).areEqual left right = true ↔ left = right ∨ Connected pairs left right) ∧
    (∀ symbol members, (ofPairs pairs).classes[symbol]? = some members ↔
      Mentioned pairs symbol ∧ ∀ other, other ∈ members ↔ Connected pairs symbol other) ∧
    ∀ others : List (Alias × Alias),
      (∀ left right, (left, right) ∈ others ∨ (right, left) ∈ others ↔ (left, right) ∈ pairs ∨ (right, left) ∈ pairs) →
        ofPairs others = ofPairs pairs := by
  have classifies := classifies_ofPairs pairs
  refine ⟨fun left right => ?_, fun _ _ => classifies.getElem?_eq_some_iff, fun others same => ?_⟩
  · rw [classifies.areEqual_iff]
    exact ⟨.inr, fun connected => connected.elim (fun same => same ▸ classifies.equivalence.refl left) id⟩
  · have connected : Connected others = Connected pairs := by
      funext one other
      refine propext ⟨fun connected => connected.mono ?_, fun connected => connected.mono ?_⟩
      · exact fun left right member => (same left right).mp (.inl member)
      · exact fun left right member => (same left right).mpr (.inl member)
    have mentioned : Mentioned others = Mentioned pairs :=
      funext fun symbol => propext (exists_congr fun other => same symbol other)
    have also := classifies_ofPairs others
    rw [connected, mentioned] at also
    exact also.unique classifies

/-- Two classes of two that a third pair joins, and the same pairs in another order, with two of them turned and
one repeated. -/
theorem areEqual_iff_connected_two_classes :
    let pairs : List (Alias × Alias) := [(⟨"a"⟩, ⟨"b"⟩), (⟨"c"⟩, ⟨"d"⟩), (⟨"b"⟩, ⟨"c"⟩)]
    let others : List (Alias × Alias) := [(⟨"c"⟩, ⟨"b"⟩), (⟨"a"⟩, ⟨"b"⟩), (⟨"d"⟩, ⟨"c"⟩), (⟨"a"⟩, ⟨"b"⟩)]
    (∀ left right,
      (left, right) ∈ others ∨ (right, left) ∈ others ↔ (left, right) ∈ pairs ∨ (right, left) ∈ pairs) ∧
      ofPairs others = ofPairs pairs ∧ (ofPairs pairs).areEqual ⟨"a"⟩ ⟨"d"⟩ = true ∧
      ¬ Connected pairs ⟨"a"⟩ ⟨"e"⟩ := by
  intro pairs others
  obtain ⟨equal, -, irrespective⟩ := areEqual_iff_connected pairs
  have same : ∀ left right,
      (left, right) ∈ others ∨ (right, left) ∈ others ↔ (left, right) ∈ pairs ∨ (right, left) ∈ pairs := by
    intro left right
    simp only [pairs, others, List.mem_cons, Prod.mk.injEq, List.not_mem_nil, or_false]
    grind
  have chained : Connected pairs ⟨"a"⟩ ⟨"d"⟩ :=
    .trans _ ⟨"b"⟩ _ (.rel _ _ (by decide)) (.trans _ ⟨"c"⟩ _ (.rel _ _ (by decide)) (.rel _ _ (by decide)))
  refine ⟨same, irrespective others same, (equal _ _).mpr (.inr chained), fun connected => ?_⟩
  exact absurd ((equal _ _).mpr (.inr connected)) (by decide)

end QueryOptimizer.AliasEquality
