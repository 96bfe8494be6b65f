import QueryOptimizer.Proofs.Expression.Numeral
import QueryOptimizer.Proofs.Expression.Printing

/-!
The s-expressions that constants, scalars and predicates are printed as. Whatever was written in any way is
written as these, too.
-/
namespace QueryOptimizer

/-- Whether all characters of the strings are legible. -/
def AllLegible (strings : List String) : Prop :=
  ∀ string ∈ strings, ∀ c ∈ string.toList, Text.isLegible c = true

instance (strings : List String) : Decidable (AllLegible strings) :=
  decidable_of_iff (strings.all fun string => string.toList.all Text.isLegible) (by simp [AllLegible])

theorem allLegible_append {strings others : List String} :
    AllLegible (strings ++ others) ↔ AllLegible strings ∧ AllLegible others :=
  List.forall_mem_append

namespace Shape

/-- A word without blanks, parentheses and quotes can be written. -/
theorem wellFormed_word {word : String} (notEmpty : word.toList.isEmpty = false)
    (plain : word.toList.all Token.isAtomChar = true) : (atom word).WellFormed :=
  wellFormed_atom.mpr ⟨List.isEmpty_eq_false_iff.mp notEmpty, List.all_eq_true.mp plain⟩

theorem wellFormed_numeral {signs : List (List Char)} {word : String} {n : Nat} (numeral : Numeral signs word n)
    (plain : ∀ sign ∈ signs, ∀ c ∈ sign, Token.isAtomChar c = true) : (atom word).WellFormed := by
  obtain ⟨sign, among, digits, parts, notEmpty, areDigits, -⟩ := numeral
  have digit {c : Char} (isDigit : c.isDigit = true) : Token.isAtomChar c = true := by
    have bounds : 48 ≤ c.toNat ∧ c.toNat ≤ 57 := by simpa [Char.isDigit, UInt32.le_iff_toNat_le] using isDigit
    refine Token.isAtomChar_iff.mpr ⟨?_, ?_, ?_, ?_⟩
    · simp [Text.isBlank, Text.blankCodes]
      omega
    all_goals
      intro same
      subst same
      exact absurd isDigit (by decide)
  refine wellFormed_atom.mpr ⟨?_, ?_⟩
  · rw [parts]
    exact List.append_ne_nil_of_right_ne_nil _ notEmpty
  · rw [parts]
    exact List.forall_mem_append.mpr ⟨plain sign among, fun c member => digit (areDigits c member)⟩

end Shape

namespace Literal

/-- The s-expression that the constant is printed as. -/
def shape : Literal → Shape
  | string value => .quoted value
  | value => .atom value.text

/-- The constant if it is a string. -/
def strings : Literal → List String
  | string value => [value]
  | _ => []

theorem toList_text (value : Literal) : value.text.toList = value.shape.text := by
  cases value <;> rfl

theorem written_shape (value : Literal) : value.Written value.shape := by
  cases value with
  | null => exact .null
  | bool value =>
    cases value with
    | true => exact .true
    | false => exact .false
  | int value => exact .int (Text.writesInteger_toString value)
  | string => exact .string

theorem wellFormed_shape (value : Literal) : value.shape.WellFormed := by
  cases value with
  | null => exact Shape.wellFormed_word rfl rfl
  | bool value => cases value <;> exact Shape.wellFormed_word rfl rfl
  | string => exact Shape.wellFormed_quoted
  | int value =>
    rcases Text.writesInteger_toString value with ⟨n, numeral, -⟩ | ⟨n, numeral, -⟩
    · exact Shape.wellFormed_numeral numeral (by simp [Token.isAtomChar, Text.isBlank, Text.blankCodes])
    · exact Shape.wellFormed_numeral numeral (by simp [Token.isAtomChar, Text.isBlank, Text.blankCodes])

theorem isLegible_shape_iff (value : Literal) : value.shape.IsLegible ↔ AllLegible value.strings := by
  cases value <;> simp [shape, strings, AllLegible]

end Literal

namespace Scalar

/-- What stands between the name of a function and its arguments. -/
def particulars : ScalarFunction → List Shape
  | .field position => [.atom (toString position)]
  | _ => []

mutual

/-- The s-expression that the scalar is printed as. -/
def shape : Scalar → Shape
  | literal _ value => value.shape
  | column _ quantifier name => .list [.atom "col", .atom quantifier.name, .atom name]
  | parameter _ symbol => .list [.atom "param", .atom symbol.name]
  | call _ function arguments =>
    .list (.atom function.name :: (particulars function ++ shapeEach arguments))

def shapeEach : List Scalar → List Shape
  | [] => []
  | scalar :: rest => shape scalar :: shapeEach rest

end

mutual

/-- The strings that occur in the scalar. -/
def strings : Scalar → List String
  | literal _ value => value.strings
  | call _ _ arguments => stringsEach arguments
  | _ => []

def stringsEach : List Scalar → List String
  | [] => []
  | scalar :: rest => strings scalar ++ stringsEach rest

end

theorem shapeEach_eq (scalars : List Scalar) : shapeEach scalars = scalars.map shape := by
  induction scalars with
  | nil => rfl
  | cons scalar rest ih => rw [shapeEach, ih, List.map_cons]

mutual

theorem toList_text (scalar : Scalar) : scalar.text.toList = scalar.shape.text := by
  cases scalar with
  | literal id value => exact value.toList_text
  | column | parameter => simp [text, shape, Shape.text, Shape.textEach]
  | call id function arguments =>
    cases function <;>
      simp [text, shape, particulars, Shape.text, Shape.textEach, toList_textEach arguments]

theorem toList_textEach (scalars : List Scalar) : (textEach scalars).toList = Shape.textEach (shapeEach scalars) := by
  cases scalars with
  | nil => rfl
  | cons scalar rest =>
    simp [textEach, shapeEach, Shape.textEach, toList_text scalar, toList_textEach rest]

end

mutual

theorem isLegible_shape_iff (scalar : Scalar) : scalar.shape.IsLegible ↔ AllLegible scalar.strings := by
  cases scalar with
  | literal id value => exact value.isLegible_shape_iff
  | column | parameter => simp [shape, strings, AllLegible]
  | call id function arguments =>
    have inner := isLegible_shapeEach_iff arguments
    cases function <;> simpa [shape, particulars, strings] using inner

theorem isLegible_shapeEach_iff (scalars : List Scalar) :
    (∀ shape ∈ shapeEach scalars, shape.IsLegible) ↔ AllLegible (stringsEach scalars) := by
  cases scalars with
  | nil => simp [shapeEach, stringsEach, AllLegible]
  | cons scalar rest =>
    rw [shapeEach, stringsEach, allLegible_append, List.forall_mem_cons, isLegible_shape_iff scalar,
      isLegible_shapeEach_iff rest]

end

/-- Whatever is written in some way is written as it is printed. -/
theorem Written.canonical {scalar : Scalar} {shape : Shape} (written : scalar.Written shape) :
    scalar.Written scalar.shape := by
  induction written with
  | literal => exact .literal (Literal.written_shape _)
  | column => exact .column
  | parameter => exact .parameter
  | field writes _ ih => exact .field (Text.writesPosition_repr writes.2) ih
  | unary named _ ih =>
    simp only [List.mem_cons, Prod.mk.injEq, List.not_mem_nil, or_false] at named
    rcases named with ⟨rfl, rfl⟩ | ⟨rfl, rfl⟩
    · exact .unary (by simp [ScalarFunction.name]) ih
    · exact .unary (by simp [ScalarFunction.name]) ih
  | binary named _ _ ihLeft ihRight =>
    simp only [List.mem_cons, Prod.mk.injEq, List.not_mem_nil, or_false] at named
    rcases named with ⟨rfl, rfl⟩ | ⟨rfl, rfl⟩ | ⟨rfl, rfl⟩
    · exact .binary (by simp [ScalarFunction.name]) ihLeft ihRight
    · exact .binary (by simp [ScalarFunction.name]) ihLeft ihRight
    · exact .binary (by simp [ScalarFunction.name]) ihLeft ihRight
  | @record id parts _ ih =>
    have all : (call id .record _).Written _ :=
      .record (parts.map fun part => (part.1, part.1.shape)) (List.forall_mem_map.mpr ih)
    simpa [Scalar.shape, particulars, shapeEach_eq, ScalarFunction.name, Function.comp_def] using all

theorem wellFormed_call (id : NodeId) (function : ScalarFunction) {arguments : List Scalar}
    (each : ∀ argument ∈ arguments, argument.shape.WellFormed) : (call id function arguments).shape.WellFormed := by
  have name : (Shape.atom function.name).WellFormed := by
    cases function with
    | field position =>
      show (Shape.atom "field").WellFormed
      exact Shape.wellFormed_word rfl rfl
    | _ => exact Shape.wellFormed_word rfl rfl
  have between : ∀ shape ∈ particulars function, shape.WellFormed := by
    cases function with
    | field position =>
      have numeral : Numeral [[]] position.repr position := Text.numeral_repr (List.mem_singleton_self _) rfl
      exact List.forall_mem_singleton.mpr (Shape.wellFormed_numeral numeral (by simp))
    | _ => exact fun _ absent => nomatch absent
  rw [shape, Shape.wellFormed_list, shapeEach_eq, List.forall_mem_cons, List.forall_mem_append, List.forall_mem_map]
  exact ⟨name, between, each⟩

/-- Whatever is written in a well-formed way is printed in one. -/
theorem Written.wellFormed {scalar : Scalar} {shape : Shape} (written : scalar.Written shape)
    (formed : shape.WellFormed) : scalar.shape.WellFormed := by
  induction written with
  | literal => exact Literal.wellFormed_shape _
  | column | parameter => exact formed
  | field writes _ ih =>
    have inner := Shape.wellFormed_list.mp formed
    exact wellFormed_call _ _ (List.forall_mem_singleton.mpr (ih (inner _ (by simp))))
  | unary named _ ih =>
    have inner := Shape.wellFormed_list.mp formed
    exact wellFormed_call _ _ (List.forall_mem_singleton.mpr (ih (inner _ (by simp))))
  | binary named _ _ ihLeft ihRight =>
    have inner := Shape.wellFormed_list.mp formed
    exact wellFormed_call _ _ (List.forall_mem_cons.mpr ⟨ihLeft (inner _ (by simp)),
      List.forall_mem_singleton.mpr (ihRight (inner _ (by simp)))⟩)
  | record parts _ ih =>
    have inner := Shape.wellFormed_list.mp formed
    refine wellFormed_call _ _ (List.forall_mem_map.mpr fun part member => ih part member (inner _ ?_))
    exact List.mem_cons_of_mem _ (List.mem_map_of_mem member)

end Scalar

namespace Predicate

mutual

/-- The s-expression that the predicate is printed as. -/
def shape : Predicate → Shape
  | constant _ truth => .atom truth.text
  | and _ operands => .list (.atom "and" :: shapeEach operands)
  | or _ operands => .list (.atom "or" :: shapeEach operands)
  | not _ operand => .list [.atom "not", shape operand]
  | compare _ comparison left right => .list [.atom comparison.symbol, left.shape, right.shape]
  | isNull _ operand => .list [.atom "is-null", operand.shape]

def shapeEach : List Predicate → List Shape
  | [] => []
  | predicate :: rest => shape predicate :: shapeEach rest

end

mutual

/-- The strings that occur in the scalars of the predicate. -/
def strings : Predicate → List String
  | constant _ _ => []
  | and _ operands => stringsEach operands
  | or _ operands => stringsEach operands
  | not _ operand => strings operand
  | compare _ _ left right => left.strings ++ right.strings
  | isNull _ operand => operand.strings

def stringsEach : List Predicate → List String
  | [] => []
  | predicate :: rest => strings predicate ++ stringsEach rest

end

theorem shapeEach_eq (predicates : List Predicate) : shapeEach predicates = predicates.map shape := by
  induction predicates with
  | nil => rfl
  | cons predicate rest ih => rw [shapeEach, ih, List.map_cons]

mutual

theorem toList_text (predicate : Predicate) : predicate.text.toList = predicate.shape.text := by
  cases predicate with
  | constant id truth => rfl
  | and id operands | or id operands =>
    simp [text, shape, Shape.text, toList_textEach operands]
  | not id operand => simp [text, shape, Shape.text, Shape.textEach, toList_text operand]
  | compare id comparison left right =>
    simp [text, shape, Shape.text, Shape.textEach, left.toList_text, right.toList_text]
  | isNull id operand => simp [text, shape, Shape.text, Shape.textEach, operand.toList_text]

theorem toList_textEach (predicates : List Predicate) :
    (textEach predicates).toList = Shape.textEach (shapeEach predicates) := by
  cases predicates with
  | nil => rfl
  | cons predicate rest =>
    simp [textEach, shapeEach, Shape.textEach, toList_text predicate, toList_textEach rest]

end

mutual

theorem isLegible_shape_iff (predicate : Predicate) : predicate.shape.IsLegible ↔ AllLegible predicate.strings := by
  cases predicate with
  | constant => simp [shape, strings, AllLegible]
  | and id operands | or id operands => simpa [shape, strings] using isLegible_shapeEach_iff operands
  | not id operand => simpa [shape, strings] using isLegible_shape_iff operand
  | compare id comparison left right =>
    simp [shape, strings, left.isLegible_shape_iff, right.isLegible_shape_iff, allLegible_append]
  | isNull id operand => simp [shape, strings, operand.isLegible_shape_iff]

theorem isLegible_shapeEach_iff (predicates : List Predicate) :
    (∀ shape ∈ shapeEach predicates, shape.IsLegible) ↔ AllLegible (stringsEach predicates) := by
  cases predicates with
  | nil => simp [shapeEach, stringsEach, AllLegible]
  | cons predicate rest =>
    rw [shapeEach, stringsEach, allLegible_append, List.forall_mem_cons, isLegible_shape_iff predicate,
      isLegible_shapeEach_iff rest]

end

/-- Whatever is written in some way is written as it is printed. -/
theorem Written.canonical {predicate : Predicate} {shape : Shape} (written : predicate.Written shape) :
    predicate.Written predicate.shape := by
  induction written with
  | @constant id word truth named =>
    refine .constant ?_
    cases truth <;> simp [Truth.text]
  | @and id parts _ ih =>
    have all : (Predicate.and id _).Written _ :=
      .and (parts.map fun part => (part.1, part.1.shape)) (List.forall_mem_map.mpr ih)
    simpa [Predicate.shape, shapeEach_eq, Function.comp_def] using all
  | @or id parts _ ih =>
    have all : (Predicate.or id _).Written _ :=
      .or (parts.map fun part => (part.1, part.1.shape)) (List.forall_mem_map.mpr ih)
    simpa [Predicate.shape, shapeEach_eq, Function.comp_def] using all
  | not _ ih => exact .not ih
  | @compare id symbol comparison left right _ _ named writtenLeft writtenRight =>
    refine .compare ?_ writtenLeft.canonical writtenRight.canonical
    cases comparison <;> simp [Comparison.symbol]
  | isNull written => exact .isNull written.canonical

/-- Whatever is written in a well-formed way is printed in one. -/
theorem Written.wellFormed {predicate : Predicate} {shape : Shape} (written : predicate.Written shape)
    (formed : shape.WellFormed) : predicate.shape.WellFormed := by
  induction written with
  | @constant id word truth named =>
    cases truth <;> exact Shape.wellFormed_word rfl rfl
  | and parts _ ih | or parts _ ih =>
    obtain ⟨name, operands⟩ := List.forall_mem_cons.mp (Shape.wellFormed_list.mp formed)
    rw [Predicate.shape, Shape.wellFormed_list, shapeEach_eq, List.forall_mem_cons, List.forall_mem_map,
      List.forall_mem_map]
    exact ⟨name, fun part member => ih part member (operands _ (List.mem_map_of_mem member))⟩
  | not _ ih =>
    obtain ⟨name, operands⟩ := List.forall_mem_cons.mp (Shape.wellFormed_list.mp formed)
    have operand := ih (operands _ (List.mem_cons_self ..))
    exact Shape.wellFormed_list.mpr (List.forall_mem_cons.mpr ⟨name, List.forall_mem_singleton.mpr operand⟩)
  | @compare id symbol comparison left right _ _ named writtenLeft writtenRight =>
    obtain ⟨-, operands⟩ := List.forall_mem_cons.mp (Shape.wellFormed_list.mp formed)
    have name : (Shape.atom comparison.symbol).WellFormed := by
      cases comparison <;> exact Shape.wellFormed_word rfl rfl
    have sides :=
      And.intro (writtenLeft.wellFormed (operands _ (by simp))) (writtenRight.wellFormed (operands _ (by simp)))
    simpa [Predicate.shape] using And.intro name sides
  | isNull written =>
    obtain ⟨name, operands⟩ := List.forall_mem_cons.mp (Shape.wellFormed_list.mp formed)
    have operand := written.wellFormed (operands _ (List.mem_cons_self ..))
    exact Shape.wellFormed_list.mpr (List.forall_mem_cons.mpr ⟨name, List.forall_mem_singleton.mpr operand⟩)

end Predicate
end QueryOptimizer
