import QueryOptimizer.Text.Blank

/-!
Tokens of the textual syntax: parentheses, quoted strings and atoms, each with the byte offset at
which it starts.
-/
namespace QueryOptimizer

/-- What was wrong with a text, and the byte offset at which it was found. -/
structure ParseError where
  problem : String
  position : Nat
  deriving DecidableEq, Repr

def ParseError.message (error : ParseError) : String :=
  error.problem ++ " at position " ++ toString error.position

inductive Token where
  | opening (position : Nat)
  | closing (position : Nat)
  | quoted (position : Nat) (value : String)
  | atom (position : Nat) (text : String)
  /-- The start of a quoted string that is not well formed; no token comes after it. -/
  | malformed (position : Nat) (error : ParseError)
  deriving DecidableEq, Repr

namespace Token

def position : Token → Nat
  | opening position => position
  | closing position => position
  | quoted position _ => position
  | atom position _ => position
  | malformed position _ => position

/-- The characters that an atom is made of. -/
def isAtomChar (c : Char) : Bool :=
  !Text.isBlank c && c ≠ '(' && c ≠ ')' && c ≠ '"'

/-- How many bytes a text takes in UTF-8. -/
def byteLength : List Char → Nat
  | [] => 0
  | c :: rest => c.utf8Size + byteLength rest

/-- Reads the rest of a quoted string that was opened at `start`: its value, given the characters read
so far in reverse, the position after the closing quote, and the text from there on. -/
def readQuoted (start : Nat) :
    List Char → Nat → List Char → Except ParseError (String × Nat × List Char)
  | _, _, [] => .error ⟨"unterminated string", start⟩
  | value, position, '"' :: rest => .ok (String.ofList value.reverse, position + 1, rest)
  | value, position, '\\' :: 'n' :: rest => readQuoted start ('\n' :: value) (position + 2) rest
  | value, position, '\\' :: 't' :: rest => readQuoted start ('\t' :: value) (position + 2) rest
  | value, position, '\\' :: '"' :: rest => readQuoted start ('"' :: value) (position + 2) rest
  | value, position, '\\' :: '\\' :: rest => readQuoted start ('\\' :: value) (position + 2) rest
  | _, position, '\\' :: _ => .error ⟨"invalid escape", position⟩
  | value, position, c :: rest => readQuoted start (c :: value) (position + c.utf8Size) rest

theorem length_of_readQuoted {start position next : Nat} {value text rest : List Char}
    {result : String} (read : readQuoted start value position text = .ok (result, next, rest)) :
    rest.length < text.length := by
  fun_induction readQuoted start value position text <;> simp_all <;> grind

theorem length_dropWhile_le (keep : Char → Bool) (text : List Char) :
    (text.dropWhile keep).length ≤ text.length :=
  (List.dropWhile_sublist keep).length_le

/-- The tokens of a text that starts at `position`, up to the first malformed one. -/
def scanFrom (position : Nat) (text : List Char) : List Token :=
  match text with
  | [] => []
  | c :: rest =>
    if Text.isBlank c then scanFrom (position + c.utf8Size) rest
    else if c = '(' then opening position :: scanFrom (position + 1) rest
    else if c = ')' then closing position :: scanFrom (position + 1) rest
    else if c = '"' then
      match _read : readQuoted position [] (position + 1) rest with
      | .error error => [malformed position error]
      | .ok (value, next, after) => quoted position value :: scanFrom next after
    else
      let word := c :: rest.takeWhile isAtomChar
      atom position (String.ofList word) ::
        scanFrom (position + byteLength word) (rest.dropWhile isAtomChar)
termination_by text.length
decreasing_by
  · simp
  · simp
  · simp
  · have shorter := length_of_readQuoted _read
    simp only [List.length_cons]
    omega
  · have bound := length_dropWhile_le isAtomChar rest
    simp only [List.length_cons]
    omega

def scan (text : String) : List Token :=
  scanFrom 0 text.toList

end Token
end QueryOptimizer
