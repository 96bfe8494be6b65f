import QueryOptimizer.Proofs.Expression.Canonical
import QueryOptimizer.Proofs.Parsing

/-!
What comes of parsing the printed text of something that was parsed: the same again if all of its strings are
legible, and an error otherwise.
-/
namespace QueryOptimizer

/-- The text is the printed form of what is written as the s-expressions that `written` holds for, and of
which `strings` are the strings. -/
structure Prints (written : Shape → Prop) (strings : List String) (text : String) (shape : Shape) : Prop where
  written : written shape
  formed : shape.WellFormed
  same : text.toList = shape.text
  legible_iff : shape.IsLegible ↔ AllLegible strings

namespace Prints
variable {written : Shape → Prop} {strings : List String} {text : String} {shape : Shape}

theorem rendering (printed : Prints written strings text shape) (legible : AllLegible strings) :
    Rendering written text :=
  Shape.rendering_of_isLegible printed.written printed.formed printed.same (printed.legible_iff.mpr legible)

theorem unread (printed : Prints written strings text shape) (illegible : ¬ AllLegible strings) :
    ∃ error, Sexp.parse text = .error error :=
  Shape.parse_of_not_isLegible printed.formed printed.same fun legible => illegible (printed.legible_iff.mp legible)

end Prints

theorem Literal.prints (value : Literal) : Prints value.Written value.strings value.text value.shape :=
  ⟨value.written_shape, value.wellFormed_shape, value.toList_text, value.isLegible_shape_iff⟩

theorem Scalar.prints {scalar : Scalar} {text : String} (rendering : Rendering scalar.Written text) :
    Prints scalar.Written scalar.strings scalar.text scalar.shape := by
  obtain ⟨shape, written, laid⟩ := rendering
  exact ⟨written.canonical, written.wellFormed laid.wellFormed, scalar.toList_text, scalar.isLegible_shape_iff⟩

theorem Predicate.prints {predicate : Predicate} {text : String} (rendering : Rendering predicate.Written text) :
    Prints predicate.Written predicate.strings predicate.text predicate.shape := by
  obtain ⟨shape, written, laid⟩ := rendering
  exact ⟨written.canonical, written.wellFormed laid.wellFormed, predicate.toList_text, predicate.isLegible_shape_iff⟩

/-- Whatever is read from a text is printed as a text that is accepted as the same again if all strings in it are
legible, and that is rejected otherwise. -/
theorem parses_printed_text_if_legible (text : String) (supply later : Supply) :
    (∀ value, Literal.parse text = .ok value →
      (AllLegible value.strings → Literal.parse value.text = .ok value) ∧
        (¬ AllLegible value.strings → ∃ error, Literal.parse value.text = .error error)) ∧
    (∀ scalar after, Scalar.parse text supply = .ok scalar after →
      (AllLegible scalar.strings →
        ∃ again final, Scalar.parse scalar.text later = .ok again final ∧ again.agrees scalar = true) ∧
        (¬ AllLegible scalar.strings → ∃ error final, Scalar.parse scalar.text later = .error error final)) ∧
    (∀ predicate after, Predicate.parse text supply = .ok predicate after →
      (AllLegible predicate.strings →
        ∃ again final, Predicate.parse predicate.text later = .ok again final ∧ again.agrees predicate = true) ∧
        (¬ AllLegible predicate.strings →
          ∃ error final, Predicate.parse predicate.text later = .error error final)) := by
  refine ⟨?_, ?_, ?_⟩
  · intro value _
    -- Every constant is one that can be written, and so it does not matter what it was read from.
    refine ⟨fun legible => Literal.parse_eq_ok_iff.mpr (value.prints.rendering legible), fun illegible => ?_⟩
    obtain ⟨error, unread⟩ := value.prints.unread illegible
    exact ⟨error, by rw [Literal.parse, unread]; rfl⟩
  · intro scalar after parsed
    have printed := Scalar.prints ((Scalar.parse_eq_ok_iff text scalar supply).mp
      ⟨scalar, after, parsed, (Scalar.agrees_iff_bare_eq scalar scalar).mpr rfl⟩)
    refine ⟨fun legible => (Scalar.parse_eq_ok_iff _ _ later).mpr (printed.rendering legible), fun illegible => ?_⟩
    obtain ⟨error, unread⟩ := printed.unread illegible
    exact ⟨error, later, readText_of_error unread _ later⟩
  · intro predicate after parsed
    have printed := Predicate.prints ((Predicate.parse_eq_ok_iff text predicate supply).mp
      ⟨predicate, after, parsed, (Predicate.agrees_iff_bare_eq predicate predicate).mpr rfl⟩)
    refine ⟨fun legible => (Predicate.parse_eq_ok_iff _ _ later).mpr (printed.rendering legible), fun illegible => ?_⟩
    obtain ⟨error, unread⟩ := printed.unread illegible
    exact ⟨error, later, readText_of_error unread _ later⟩

/-- Between quotes, a line feed is printed so that it is read again, and a carriage return is not. -/
theorem parses_printed_text_if_legible_line_ends :
    Literal.parse "\"\r\"" = .ok (.string "\r") ∧ (∃ error, Literal.parse "\"\\r\"" = .error error) ∧
      (∃ again final, Predicate.parse "(is-null \"\\n\")" ⟨2⟩ = .ok again final ∧
        again.agrees (.isNull ⟨1⟩ (.literal ⟨0⟩ (.string "\n"))) = true) ∧
      (∃ error final, Scalar.parse "(neg \"\\r\")" ⟨2⟩ = .error error final) := by
  have legible : AllLegible ["\n"] := by decide +kernel
  have illegible : ¬ AllLegible ["\r"] := by decide +kernel
  have literal : Literal.parse "\"\r\"" = .ok (.string "\r") := by cbv
  have predicate : Predicate.parse "(is-null  \"\n\")" ⟨0⟩ = .ok (.isNull ⟨1⟩ (.literal ⟨0⟩ (.string "\n"))) ⟨2⟩ := by
    cbv
  have scalar : Scalar.parse "(neg  \"\r\")" ⟨0⟩ = .ok (.call ⟨1⟩ .neg [.literal ⟨0⟩ (.string "\r")]) ⟨2⟩ := by
    cbv
  exact ⟨literal, ((parses_printed_text_if_legible _ ⟨0⟩ ⟨2⟩).1 _ literal).2 illegible,
    ((parses_printed_text_if_legible _ ⟨0⟩ ⟨2⟩).2.2 _ _ predicate).1 legible,
    ((parses_printed_text_if_legible _ ⟨0⟩ ⟨2⟩).2.1 _ _ scalar).2 illegible⟩

end QueryOptimizer
