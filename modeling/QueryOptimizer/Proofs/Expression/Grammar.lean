import Mathlib
import QueryOptimizer.Predicate.Basic
import QueryOptimizer.Text.Blank

/-!
The grammar of the textual syntax, stated without a reader. A text lays out lexemes, the lexemes are those
of an s-expression, and a value is written as an s-expression.
-/
namespace QueryOptimizer

/-- What a text consists of, apart from blanks. -/
inductive Lexeme where
  | opening
  | closing
  | quoted (value : String)
  | atom (word : String)
  deriving DecidableEq

/-- How a character of a string is written between double quotes. -/
inductive WritesChar : Char → List Char → Prop where
  | raw {c : Char} : c ≠ '"' → c ≠ '\\' → WritesChar c [c]
  | newline : WritesChar '\n' ['\\', 'n']
  | tab : WritesChar '\t' ['\\', 't']
  | quote : WritesChar '"' ['\\', '"']
  | backslash : WritesChar '\\' ['\\', '\\']

/-- How the characters of a string are written between double quotes, one after the other. -/
inductive WritesString : List Char → List Char → Prop where
  | nil : WritesString [] []
  | cons {c : Char} {written value body : List Char} : WritesChar c written → WritesString value body →
      WritesString (c :: value) (written ++ body)

namespace Lexeme

/-- The characters that a lexeme is written with, where `spells` says how the characters of a string are. -/
inductive Writes (spells : List Char → List Char → Prop) : Lexeme → List Char → Prop where
  | opening : Writes spells .opening ['(']
  | closing : Writes spells .closing [')']
  | quoted {value : String} {body : List Char} : spells value.toList body →
      Writes spells (.quoted value) ('"' :: body ++ ['"'])
  | atom {word : String} : word.toList ≠ [] →
      (∀ c ∈ word.toList, Text.isBlank c = false ∧ c ≠ '(' ∧ c ≠ ')' ∧ c ≠ '"') →
      Writes spells (.atom word) word.toList

def isAtom : Lexeme → Bool
  | atom _ => true
  | _ => false

end Lexeme

/-- The text consists of the lexemes in order, with any number of blanks before, between and after them, but
at least one between two atoms. -/
inductive LaysOut (spells : List Char → List Char → Prop) : List Lexeme → List Char → Prop where
  | nil {gap : List Char} : (∀ c ∈ gap, Text.isBlank c = true) → LaysOut spells [] gap
  | cons {gap written text : List Char} {lexeme : Lexeme} {lexemes : List Lexeme} :
      (∀ c ∈ gap, Text.isBlank c = true) → lexeme.Writes spells written → LaysOut spells lexemes text →
      (lexeme.isAtom = true → ∀ next ∈ lexemes.head?, next.isAtom = true → ∃ c ∈ text.head?, Text.isBlank c = true) →
      LaysOut spells (lexeme :: lexemes) (gap ++ written ++ text)

/-- S-expressions, wherever they are in a text. -/
inductive Shape where
  | atom (word : String)
  | quoted (value : String)
  | list (items : List Shape)

namespace Shape

mutual

def lexemes : Shape → List Lexeme
  | atom word => [.atom word]
  | quoted value => [.quoted value]
  | list items => .opening :: (lexemesEach items ++ [.closing])

def lexemesEach : List Shape → List Lexeme
  | [] => []
  | shape :: rest => lexemes shape ++ lexemesEach rest

end

end Shape

/-- The word consists of one or more digits, after a sign if one of `signs` stands there, and the digits have
the value `n`. -/
def Numeral (signs : List (List Char)) (word : String) (n : Nat) : Prop :=
  ∃ sign ∈ signs, ∃ digits, word.toList = sign ++ digits ∧ digits ≠ [] ∧
    (∀ c ∈ digits, c.isDigit = true) ∧ Nat.ofDigitChars 10 digits 0 = n

/-- The atoms that stand for an integer of 64 bits. -/
def WritesInteger (word : String) (value : Int64) : Prop :=
  (∃ n, Numeral [[], ['+']] word n ∧ value.toInt = n) ∨ ∃ n, Numeral [['-']] word n ∧ value.toInt = -n

/-- The atoms that stand for the position of a field, an unsigned integer of 64 bits. -/
def WritesPosition (word : String) (position : Nat) : Prop :=
  Numeral [[], ['+']] word position ∧ position < 2 ^ 64

inductive Literal.Written : Literal → Shape → Prop where
  | null : Written .null (.atom "null")
  | true : Written (.bool true) (.atom "true")
  | false : Written (.bool false) (.atom "false")
  | int {word : String} {value : Int64} : WritesInteger word value → Written (.int value) (.atom word)
  | string {value : String} : Written (.string value) (.quoted value)

/-- How a scalar is written, apart from the identities of its nodes. -/
inductive Scalar.Written : Scalar → Shape → Prop where
  | literal {id : NodeId} {value : Literal} {shape : Shape} : value.Written shape →
      Written (.literal id value) shape
  | column {id : NodeId} {quantifier : Alias} {name : String} :
      Written (.column id quantifier name) (.list [.atom "col", .atom quantifier.name, .atom name])
  | parameter {id : NodeId} {symbol : Alias} :
      Written (.parameter id symbol) (.list [.atom "param", .atom symbol.name])
  | field {id : NodeId} {position : Nat} {word : String} {record : Scalar} {shape : Shape} :
      WritesPosition word position → Written record shape →
      Written (.call id (.field position) [record]) (.list [.atom "field", .atom word, shape])
  | unary {id : NodeId} {name : String} {function : ScalarFunction} {operand : Scalar} {shape : Shape} :
      (name, function) ∈ [("neg", .neg), ("abs", .abs)] → Written operand shape →
      Written (.call id function [operand]) (.list [.atom name, shape])
  | binary {id : NodeId} {name : String} {function : ScalarFunction} {left right : Scalar}
      {leftShape rightShape : Shape} :
      (name, function) ∈ [("+", .add), ("-", .sub), ("*", .mul)] → Written left leftShape →
      Written right rightShape →
      Written (.call id function [left, right]) (.list [.atom name, leftShape, rightShape])
  | record {id : NodeId} (parts : List (Scalar × Shape)) : (∀ part ∈ parts, Written part.1 part.2) →
      Written (.call id .record (parts.map Prod.fst)) (.list (.atom "record" :: parts.map Prod.snd))

/-- How a predicate is written, apart from the identities of its nodes. -/
inductive Predicate.Written : Predicate → Shape → Prop where
  | constant {id : NodeId} {word : String} {truth : Truth} :
      (word, truth) ∈ [("true", .holds), ("false", .fails), ("unknown", .unknown)] →
      Written (.constant id truth) (.atom word)
  | and {id : NodeId} (parts : List (Predicate × Shape)) : (∀ part ∈ parts, Written part.1 part.2) →
      Written (.and id (parts.map Prod.fst)) (.list (.atom "and" :: parts.map Prod.snd))
  | or {id : NodeId} (parts : List (Predicate × Shape)) : (∀ part ∈ parts, Written part.1 part.2) →
      Written (.or id (parts.map Prod.fst)) (.list (.atom "or" :: parts.map Prod.snd))
  | not {id : NodeId} {operand : Predicate} {shape : Shape} : Written operand shape →
      Written (.not id operand) (.list [.atom "not", shape])
  | compare {id : NodeId} {symbol : String} {comparison : Comparison} {left right : Scalar}
      {leftShape rightShape : Shape} :
      (symbol, comparison) ∈ [("=", .eq), ("<>", .notEq), ("<", .lt), ("<=", .lte), (">", .gt), (">=", .gte)] →
      left.Written leftShape → right.Written rightShape →
      Written (.compare id comparison left right) (.list [.atom symbol, leftShape, rightShape])
  | isNull {id : NodeId} {operand : Scalar} {shape : Shape} : operand.Written shape →
      Written (.isNull id operand) (.list [.atom "is-null", shape])

/-- The text is a rendering of what is written as the s-expressions that `written` holds for. -/
def Rendering (written : Shape → Prop) (text : String) : Prop :=
  ∃ shape, written shape ∧ LaysOut WritesString shape.lexemes text.toList

end QueryOptimizer
