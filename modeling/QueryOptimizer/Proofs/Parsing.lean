import QueryOptimizer.Proofs.Expression.PredicateReading

/-!
Constants, scalars and predicates are parsed from the renderings of their grammar, and from nothing else.
-/
namespace QueryOptimizer

/-- A text is read as a constant if and only if it is a rendering of that. -/
theorem Literal.parse_eq_ok_iff {text : String} {value : Literal} :
    parse text = .ok value ↔ Rendering value.Written text := by
  have reads {sexp : Sexp} (whole : Sexp.parse text = .ok sexp) :
      parse text = .ok value ↔ sexp.literal? = some value := by
    simp only [parse, whole, bind, Except.bind]
    cases sexp.literal? <;> simp [pure, Except.pure, throw, throwThe, MonadExceptOf.throw]
  constructor
  · intro parsed
    cases whole : Sexp.parse text with
    | error problem =>
      rw [parse, whole] at parsed
      cases parsed
    | ok sexp =>
      exact ⟨sexp.shape, Sexp.literal?_eq_some_iff.mp ((reads whole).mp parsed), Sexp.laysOut_of_parse whole⟩
  · intro rendering
    obtain ⟨shape, written, laid⟩ := rendering
    obtain ⟨sexp, whole, rfl⟩ := Sexp.parse_of_laysOut laid
    exact (reads whole).mpr (Sexp.literal?_eq_some_iff.mpr written)

theorem readText_of_error {ν : Type} {text : String} {problem : ParseError}
    (unread : Sexp.parse text = .error problem) (read : Sexp → ReadM ν) (supply : Supply) :
    readText read text supply = .error problem supply := by
  rw [readText, unread]
  rfl

section
variable {ν : Type} {read : Sexp → ReadM ν} {agrees : ν → ν → Bool} {written : ν → Shape → Prop}

/-- A text is read as a value if and only if it is a rendering of that, where this is so of s-expressions. -/
theorem readText_eq_ok_iff
    (sound : ∀ sexp supply, WhenReturns (read sexp) supply fun value _ => written value sexp.shape)
    (complete : ∀ value shape, written value shape → Sexp.ReadsBack read agrees value shape)
    (similar : ∀ value shape, written value shape → ∀ other, agrees value other = true → written other shape)
    (text : String) (value : ν) (supply : Supply) :
    (∃ found after, readText read text supply = .ok found after ∧ agrees found value = true) ↔
      Rendering (written value) text := by
  constructor
  · intro accepted
    obtain ⟨found, after, parsed, agreed⟩ := accepted
    cases whole : Sexp.parse text with
    | error problem =>
      rw [readText_of_error whole] at parsed
      cases parsed
    | ok sexp =>
      rw [readText, whole] at parsed
      have direct : written found sexp.shape := (sound sexp supply).at_ok parsed
      exact ⟨sexp.shape, similar found sexp.shape direct value agreed, Sexp.laysOut_of_parse whole⟩
  · intro rendering
    obtain ⟨shape, written, laid⟩ := rendering
    obtain ⟨sexp, whole, same⟩ := Sexp.parse_of_laysOut laid
    obtain ⟨found, after, parsed, agreed⟩ := (complete value shape written sexp same supply).returned
    refine ⟨found, after, ?_, agreed⟩
    rw [readText, whole]
    exact parsed

/-- Two values that a text can be read as agree. -/
theorem agrees_of_readText {text : String} {one other : ν} {supply : Supply}
    (euclidean : ∀ value one other, agrees value one = true → agrees value other = true → agrees one other = true)
    (first : ∃ found after, readText read text supply = .ok found after ∧ agrees found one = true)
    (second : ∃ found after, readText read text supply = .ok found after ∧ agrees found other = true) :
    agrees one other = true := by
  -- With the same supply, the text is read as one and the same value, which agrees with both.
  obtain ⟨found, after, parsed, agreed⟩ := first
  obtain ⟨again, _, parsedAgain, agreedAgain⟩ := second
  cases parsed.symm.trans parsedAgain
  exact euclidean found one other agreed agreedAgain

end

theorem Scalar.parse_eq_ok_iff (text : String) (scalar : Scalar) (supply : Supply) :
    (∃ found after, parse text supply = .ok found after ∧ found.agrees scalar = true) ↔
      Rendering scalar.Written text :=
  readText_eq_ok_iff Sexp.readScalar_written (fun _ _ written => Sexp.readsBack_scalar written)
    (fun _ _ written _ agreed => written.of_agrees agreed) text scalar supply

theorem Predicate.parse_eq_ok_iff (text : String) (predicate : Predicate) (supply : Supply) :
    (∃ found after, parse text supply = .ok found after ∧ found.agrees predicate = true) ↔
      Rendering predicate.Written text :=
  readText_eq_ok_iff Sexp.readPredicate_written (fun _ _ written => Sexp.readsBack_predicate written)
    (fun _ _ written _ agreed => written.of_agrees agreed) text predicate supply

/-- Each of the parsers accepts exactly the renderings of its grammar, as the value that they render, and no text is a
rendering of two different values. Scalars and predicates are the same if they agree: each time that a text is
parsed, the nodes get new identities. -/
theorem parses_exactly_renderings :
    (∀ (text : String) (value : Literal), Literal.parse text = .ok value ↔ Rendering value.Written text) ∧
    (∀ (text : String) (scalar : Scalar) (supply : Supply),
      (∃ found after, Scalar.parse text supply = .ok found after ∧ found.agrees scalar = true) ↔
        Rendering scalar.Written text) ∧
    (∀ (text : String) (predicate : Predicate) (supply : Supply),
      (∃ found after, Predicate.parse text supply = .ok found after ∧ found.agrees predicate = true) ↔
        Rendering predicate.Written text) ∧
    (∀ (text : String) (one other : Literal),
      Rendering one.Written text → Rendering other.Written text → one = other) ∧
    (∀ (text : String) (one other : Scalar),
      Rendering one.Written text → Rendering other.Written text → one.agrees other = true) ∧
    (∀ (text : String) (one other : Predicate),
      Rendering one.Written text → Rendering other.Written text → one.agrees other = true) := by
  refine ⟨fun _ _ => Literal.parse_eq_ok_iff, Scalar.parse_eq_ok_iff, Predicate.parse_eq_ok_iff, ?_, ?_, ?_⟩
  · intro text one other first second
    exact Except.ok.inj
      ((Literal.parse_eq_ok_iff.mpr first).symm.trans (Literal.parse_eq_ok_iff.mpr second))
  · intro text one other first second
    exact agrees_of_readText (fun _ _ _ => Scalar.agrees_of_agrees)
      ((Scalar.parse_eq_ok_iff text one ⟨0⟩).mpr first) ((Scalar.parse_eq_ok_iff text other ⟨0⟩).mpr second)
  · intro text one other first second
    exact agrees_of_readText (fun _ _ _ => Predicate.agrees_of_agrees)
      ((Predicate.parse_eq_ok_iff text one ⟨0⟩).mpr first) ((Predicate.parse_eq_ok_iff text other ⟨0⟩).mpr second)

/-- A comparison of a string with a number, written without any blank. -/
theorem parses_exactly_renderings_without_blanks :
    Rendering (Predicate.compare ⟨2⟩ .eq (.literal ⟨0⟩ (.string "a\"")) (.literal ⟨1⟩ (.int 5))).Written
        "(=\"a\\\"\"+05)" ∧
      (Predicate.compare ⟨2⟩ .eq (.literal ⟨0⟩ (.string "a\"")) (.literal ⟨1⟩ (.int 5))).agrees
        (.compare ⟨7⟩ .eq (.literal ⟨7⟩ (.string "a\"")) (.literal ⟨7⟩ (.int 5))) = true := by
  have parsed : Predicate.parse "(=\"a\\\"\"+05)" ⟨0⟩ =
      .ok (.compare ⟨2⟩ .eq (.literal ⟨0⟩ (.string "a\"")) (.literal ⟨1⟩ (.int 5))) ⟨3⟩ := by
    cbv
  have renders := fun predicate => (parses_exactly_renderings.2.2.1 "(=\"a\\\"\"+05)" predicate ⟨0⟩).mp
  have one := renders _ ⟨_, _, parsed, (Predicate.agrees_iff_bare_eq _ _).mpr rfl⟩
  exact ⟨one, parses_exactly_renderings.2.2.2.2.2 _ _ _ one (renders _ ⟨_, _, parsed, by decide⟩)⟩

end QueryOptimizer
