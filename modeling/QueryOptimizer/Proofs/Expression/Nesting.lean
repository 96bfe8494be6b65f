import QueryOptimizer.Expression.Sexp
import QueryOptimizer.Proofs.Expression.Scanning

/-!
The reader of s-expressions finds the one that the tokens of a text spell out. It keeps the lists that are
still unclosed on a stack, and so what it has read so far are the lexemes of that stack.
-/
namespace QueryOptimizer

namespace Shape

theorem lexemesEach_append (front back : List Shape) :
    lexemesEach (front ++ back) = lexemesEach front ++ lexemesEach back := by
  induction front with
  | nil => rfl
  | cons shape rest ih => simp only [List.cons_append, lexemesEach, ih, List.append_assoc]

end Shape

namespace Sexp

mutual

/-- What an s-expression is, wherever it was read. -/
def shape : Sexp → Shape
  | atom _ word => .atom word
  | quoted _ value => .quoted value
  | list _ items => .list (shapeEach items)

def shapeEach : List Sexp → List Shape
  | [] => []
  | sexp :: rest => shape sexp :: shapeEach rest

end

theorem shapeEach_eq (sexps : List Sexp) : shapeEach sexps = sexps.map shape := by
  induction sexps with
  | nil => rfl
  | cons sexp rest ih => rw [shapeEach, ih, List.map_cons]

/-- Goes on after `sexp` was read inside the unclosed lists. -/
def resume (textEnd : Nat) (sexp : Sexp) (unclosed : List Unclosed) (tokens : List Token) :
    Except ParseError (Sexp × List Token) :=
  match place? sexp unclosed with
  | some unclosed => readFrom textEnd unclosed tokens
  | none => .ok (sexp, tokens)

mutual

/-- Tokens that spell out an s-expression are read as that, inside any unclosed lists. -/
theorem readFrom_lexemes (shape : Shape) {front : List Token}
    (spells : Token.lexemes front = shape.lexemes.map some) :
    ∃ sexp : Sexp, sexp.shape = shape ∧ ∀ textEnd unclosed back,
      readFrom textEnd unclosed (front ++ back) = resume textEnd sexp unclosed back := by
  match shape with
  | .atom word =>
    obtain ⟨token, rfl, same⟩ := List.map_eq_singleton_iff.mp spells
    obtain ⟨position, rfl⟩ := Token.eq_atom_of_lexeme? same
    exact ⟨.atom position word, rfl, fun _ unclosed _ => by cases unclosed <;> rfl⟩
  | .quoted value =>
    obtain ⟨token, rfl, same⟩ := List.map_eq_singleton_iff.mp spells
    obtain ⟨position, rfl⟩ := Token.eq_quoted_of_lexeme? same
    exact ⟨.quoted position value, rfl, fun _ unclosed _ => by cases unclosed <;> rfl⟩
  | .list items =>
    rw [Shape.lexemes, List.map_cons, List.map_append] at spells
    obtain ⟨token, tokens, rfl, same, rest⟩ := List.map_eq_cons_iff.mp spells
    obtain ⟨position, rfl⟩ := Token.eq_opening_of_lexeme? same
    obtain ⟨inner, last, rfl, within, final⟩ := List.map_eq_append_iff.mp rest
    obtain ⟨token, rfl, same⟩ := List.map_eq_singleton_iff.mp final
    obtain ⟨_, rfl⟩ := Token.eq_closing_of_lexeme? same
    obtain ⟨sexps, shapes, read⟩ := readFrom_lexemesEach items within
    refine ⟨.list position sexps, congrArg Shape.list shapes, fun textEnd unclosed back => ?_⟩
    -- The items were put on the stack one by one, and so they are in reverse order there.
    have closed : Unclosed.close ⟨position, sexps.reverse ++ []⟩ = .list position sexps := by
      simp [Unclosed.close]
    rw [List.cons_append, readFrom, List.append_assoc, read, List.singleton_append, readFrom, closed]
    rfl

theorem readFrom_lexemesEach (shapes : List Shape) {front : List Token}
    (spells : Token.lexemes front = (Shape.lexemesEach shapes).map some) :
    ∃ sexps : List Sexp, shapeEach sexps = shapes ∧ ∀ textEnd innermost outer back,
      readFrom textEnd (innermost :: outer) (front ++ back) =
        readFrom textEnd ({ innermost with items := sexps.reverse ++ innermost.items } :: outer) back := by
  match shapes with
  | [] =>
    obtain rfl := List.map_eq_nil_iff.mp spells
    exact ⟨[], rfl, fun _ _ _ _ => rfl⟩
  | shape :: rest =>
    rw [Shape.lexemesEach, List.map_append] at spells
    obtain ⟨first, others, rfl, one, more⟩ := List.map_eq_append_iff.mp spells
    obtain ⟨sexp, same, read⟩ := readFrom_lexemes shape one
    obtain ⟨sexps, shapes, readRest⟩ := readFrom_lexemesEach rest more
    refine ⟨sexp :: sexps, by rw [shapeEach, same, shapes], fun textEnd innermost outer back => ?_⟩
    rw [List.append_assoc, read, resume, place?]
    dsimp only
    rw [readRest]
    simp

end

/-- What was read of a list that is still unclosed. -/
def Unclosed.lexemes (unclosed : Unclosed) : List Lexeme :=
  .opening :: Shape.lexemesEach (shapeEach unclosed.items.reverse)

/-- What was read of the unclosed lists, of which the innermost comes first. -/
def stacked : List Unclosed → List Lexeme
  | [] => []
  | innermost :: outer => stacked outer ++ innermost.lexemes

theorem stacked_place? {sexp : Sexp} {unclosed placed : List Unclosed}
    (found : place? sexp unclosed = some placed) : stacked placed = stacked unclosed ++ sexp.shape.lexemes := by
  cases unclosed with
  | nil => cases found
  | cons innermost outer =>
    cases found
    simp [stacked, Unclosed.lexemes, shapeEach_eq, Shape.lexemesEach_append, Shape.lexemesEach]

theorem lexemes_close (unclosed : Unclosed) :
    unclosed.close.shape.lexemes = unclosed.lexemes ++ [.closing] := by
  simp [Unclosed.close, Unclosed.lexemes, shape, Shape.lexemes]

theorem stacked_of_place?_eq_none {sexp : Sexp} {unclosed : List Unclosed}
    (absent : place? sexp unclosed = none) : stacked unclosed = [] := by
  cases unclosed with
  | nil => rfl
  | cons => cases absent

/-- The tokens before `rest` complete what was read of the unclosed lists to an s-expression. -/
def Completes (unclosed : List Unclosed) (tokens rest : List Token) (sexp : Sexp) : Prop :=
  ∃ front consumed, tokens = front ++ rest ∧ Token.lexemes front = List.map some consumed ∧
    sexp.shape.lexemes = stacked unclosed ++ consumed

theorem Completes.last {token : Token} {lexeme : Lexeme} {unclosed : List Unclosed} {rest : List Token}
    {sexp : Sexp} (same : token.lexeme? = some lexeme)
    (completed : sexp.shape.lexemes = stacked unclosed ++ [lexeme]) :
    Completes unclosed (token :: rest) rest sexp :=
  ⟨[token], [lexeme], rfl, congrArg (fun one => [one]) same, completed⟩

theorem Completes.next {token : Token} {lexeme : Lexeme} {unclosed grown : List Unclosed}
    {tokens rest : List Token} {sexp : Sexp} (same : token.lexeme? = some lexeme)
    (read : stacked grown = stacked unclosed ++ [lexeme]) (later : Completes grown tokens rest sexp) :
    Completes unclosed (token :: tokens) rest sexp := by
  obtain ⟨front, consumed, rfl, spells, completed⟩ := later
  refine ⟨token :: front, lexeme :: consumed, rfl, List.cons_eq_cons.mpr ⟨same, spells⟩, ?_⟩
  rw [completed, read, List.append_assoc, List.singleton_append]

/-- What is read was spelled out by the tokens that were consumed. -/
theorem completes_of_readFrom {textEnd : Nat} {unclosed : List Unclosed} {tokens rest : List Token} {sexp : Sexp}
    (read : readFrom textEnd unclosed tokens = .ok (sexp, rest)) : Completes unclosed tokens rest sexp := by
  -- What is read of the unclosed lists grows by one lexeme with each token, until a token completes the outermost.
  fun_induction readFrom textEnd unclosed tokens with
  | case1 => cases read
  | case2 => cases read
  | case3 unclosed position tokens ih => exact .next rfl rfl (ih read)
  | case4 => cases read
  | case5 innermost outer position tokens grown placed ih =>
    refine .next rfl ?_ (ih read)
    rw [stacked_place? placed, lexemes_close, stacked, List.append_assoc]
  | case6 innermost outer position tokens placed =>
    cases read
    refine .last rfl ?_
    rw [lexemes_close, stacked, stacked_of_place?_eq_none placed, List.nil_append]
  | case7 unclosed position value tokens grown placed ih => exact .next rfl (stacked_place? placed) (ih read)
  | case8 unclosed position value tokens placed =>
    cases read
    refine .last rfl ?_
    rw [stacked_of_place?_eq_none placed]
    rfl
  | case9 unclosed position word tokens grown placed ih => exact .next rfl (stacked_place? placed) (ih read)
  | case10 unclosed position word tokens placed =>
    cases read
    refine .last rfl ?_
    rw [stacked_of_place?_eq_none placed]
    rfl
  | case11 => cases read

/-- What a text is read as lays it out. -/
theorem laysOut_of_parse {text : String} {sexp : Sexp} (parsed : parse text = .ok sexp) :
    LaysOut WritesString sexp.shape.lexemes text.toList := by
  unfold parse at parsed
  split at parsed
  · cases parsed
  · rename_i read
    cases parsed
    obtain ⟨front, consumed, whole, spells, completed⟩ := completes_of_readFrom read
    rw [List.append_nil] at whole
    rw [completed]
    exact Token.laysOut_of_lexemes (whole ▸ spells)
  · cases parsed

/-- A text is read as the s-expression that lays it out. -/
theorem parse_of_laysOut {text : String} {shape : Shape}
    (laid : LaysOut WritesString shape.lexemes text.toList) :
    ∃ sexp, parse text = .ok sexp ∧ sexp.shape = shape := by
  obtain ⟨sexp, same, read⟩ := readFrom_lexemes shape (laid.scanned 0)
  have whole := read text.utf8ByteSize [] []
  rw [List.append_nil] at whole
  refine ⟨sexp, ?_, same⟩
  unfold parse
  rw [Token.scan, whole]
  rfl

end Sexp
end QueryOptimizer
