import QueryOptimizer.Expression.Token

/-!
S-expressions with the byte offsets at which their parts start.
-/
namespace QueryOptimizer

inductive Sexp where
  | atom (position : Nat) (text : String)
  | quoted (position : Nat) (value : String)
  | list (position : Nat) (items : List Sexp)

namespace Sexp

def position : Sexp → Nat
  | atom position _ => position
  | quoted position _ => position
  | list position _ => position

def error (sexp : Sexp) (problem : String) : ParseError :=
  ⟨problem, sexp.position⟩

/-- A list that is not closed yet, with the items read so far, latest first. -/
structure Unclosed where
  position : Nat
  items : List Sexp

def Unclosed.close (unclosed : Unclosed) : Sexp :=
  list unclosed.position unclosed.items.reverse

/-- Adds `item` to the innermost unclosed list, if there is one. -/
def place? (item : Sexp) : List Unclosed → Option (List Unclosed)
  | [] => none
  | innermost :: outer => some ({ innermost with items := item :: innermost.items } :: outer)

/-- Reads one s-expression, inside the lists that are still unclosed, and returns it with the tokens
after it. The text ends at `textEnd`. -/
def readFrom (textEnd : Nat) : List Unclosed → List Token → Except ParseError (Sexp × List Token)
  | [], [] => .error ⟨"unexpected end of input", textEnd⟩
  | innermost :: _, [] => .error ⟨"unclosed parenthesis", innermost.position⟩
  | unclosed, .opening position :: tokens => readFrom textEnd (⟨position, []⟩ :: unclosed) tokens
  | [], .closing position :: _ => .error ⟨"unexpected closing parenthesis", position⟩
  | innermost :: outer, .closing _ :: tokens =>
    match place? innermost.close outer with
    | some unclosed => readFrom textEnd unclosed tokens
    | none => .ok (innermost.close, tokens)
  | unclosed, .quoted position value :: tokens =>
    match place? (quoted position value) unclosed with
    | some unclosed => readFrom textEnd unclosed tokens
    | none => .ok (quoted position value, tokens)
  | unclosed, .atom position text :: tokens =>
    match place? (atom position text) unclosed with
    | some unclosed => readFrom textEnd unclosed tokens
    | none => .ok (atom position text, tokens)
  | _, .malformed _ error :: _ => .error error

/-- Reads a text that consists of one s-expression. -/
def parse (text : String) : Except ParseError Sexp :=
  match readFrom text.utf8ByteSize [] (Token.scan text) with
  | .error error => .error error
  | .ok (sexp, []) => .ok sexp
  | .ok (_, token :: _) => .error ⟨"unexpected trailing input", token.position⟩

end Sexp
end QueryOptimizer
