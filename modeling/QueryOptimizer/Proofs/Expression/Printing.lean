import QueryOptimizer.Proofs.Expression.Nesting

/-!
Printed s-expressions lay out their lexemes, with strings spelled by the escapes of quoted text. The scanner
knows some of these escapes only, and stops at the first string that has another.
-/
namespace QueryOptimizer

namespace Text

/-- Whether a character is printed between double quotes in a way that the scanner knows: as itself, or by
one of the escapes for line feeds, tabs, double quotes and backslashes. Null characters, carriage returns and
all other characters that would not be seen have escapes that it does not know. -/
def isLegible (c : Char) : Bool :=
  ['\n', '\t', '"', '\\'].contains c || !isHidden c

theorem writesChar_escape {c : Char} (legible : isLegible c = true) : WritesChar c (escape c) := by
  by_cases newline : c = '\n'
  · exact newline ▸ .newline
  by_cases tab : c = '\t'
  · exact tab ▸ .tab
  by_cases quote : c = '"'
  · exact quote ▸ .quote
  by_cases backslash : c = '\\'
  · exact backslash ▸ .backslash
  -- Null characters and carriage returns have escapes of their own, but they count as hidden, too.
  have seen : isHidden c = false := by simpa [isLegible, newline, tab, quote, backslash] using legible
  have notNull : c ≠ '\x00' := by
    intro null
    subst null
    exact absurd seen (by decide +kernel)
  have notReturn : c ≠ '\r' := by
    intro carriageReturn
    subst carriageReturn
    exact absurd seen (by decide +kernel)
  have plain : escape c = [c] := by simp [escape, newline, tab, quote, backslash, seen, notNull, notReturn]
  rw [plain]
  exact .raw quote backslash

/-- The escape of a character that is not legible, by what comes after the backslash. -/
theorem escape_of_not_legible {c : Char} (illegible : isLegible c = false) :
    ∃ mark rest, escape c = '\\' :: mark :: rest ∧ mark ∉ ['n', 't', '"', '\\'] := by
  obtain ⟨⟨newline, tab, quote, backslash⟩, hidden⟩ :
      (c ≠ '\n' ∧ c ≠ '\t' ∧ c ≠ '"' ∧ c ≠ '\\') ∧ isHidden c = true := by
    simpa [isLegible] using illegible
  by_cases null : c = '\x00'
  · exact ⟨'0', [], by rw [null]; rfl, by decide⟩
  by_cases carriageReturn : c = '\r'
  · exact ⟨'r', [], by rw [carriageReturn]; rfl, by decide⟩
  refine ⟨'u', '\x7b' :: (Nat.toDigits 16 c.toNat ++ ['\x7d']), ?_, by decide⟩
  simp [escape, codeEscape, newline, tab, quote, backslash, null, carriageReturn, hidden]

/-- How strings are printed between double quotes. -/
def Escapes (value body : List Char) : Prop :=
  body = value.flatMap escape

theorem writesString_of_escapes {value body : List Char} (escapes : Escapes value body)
    (legible : ∀ c ∈ value, isLegible c = true) : WritesString value body := by
  subst escapes
  induction value with
  | nil => exact .nil
  | cons c rest ih =>
    obtain ⟨first, others⟩ := List.forall_mem_cons.mp legible
    exact .cons (writesChar_escape first) (ih others)

end Text

namespace Token

theorem readQuoted_of_unknown_escape {mark : Char} (unknown : mark ∉ ['n', 't', '"', '\\']) (start : Nat)
    (before : List Char) (position : Nat) (text : List Char) :
    readQuoted start before position ('\\' :: mark :: text) = .error ⟨"invalid escape", position⟩ := by
  simp only [List.mem_cons, List.not_mem_nil, or_false, not_or] at unknown
  obtain ⟨notNewline, notTab, notQuote, notBackslash⟩ := unknown
  rw [readQuoted]
  all_goals simp_all

/-- A string that is printed with an escape unknown to the scanner is not read back. -/
theorem readQuoted_of_not_legible {value body : List Char} (escapes : Text.Escapes value body)
    (illegible : ∃ c ∈ value, Text.isLegible c = false) (start : Nat) (before : List Char) (position : Nat)
    (text : List Char) : ∃ error, readQuoted start before position (body ++ text) = .error error := by
  subst escapes
  induction value generalizing before position with
  | nil =>
    obtain ⟨c, absent, -⟩ := illegible
    cases absent
  | cons c rest ih =>
    rw [List.flatMap_cons, List.append_assoc]
    cases legible : Text.isLegible c with
    | true =>
      have later : ∃ c ∈ rest, Text.isLegible c = false := by simpa [legible] using illegible
      obtain ⟨next, read⟩ := readQuoted_char (Text.writesChar_escape legible) start before position
      rw [read]
      exact ih later (c :: before) next
    | false =>
      obtain ⟨mark, digits, parts, unknown⟩ := Text.escape_of_not_legible legible
      rw [parts]
      exact ⟨_, readQuoted_of_unknown_escape unknown start before position _⟩

end Token

namespace Lexeme
variable {lexeme : Lexeme} {written : List Char}

/-- Whether the lexeme can be written at all: an atom is not empty, and all of its characters are of atoms. -/
def WellFormed : Lexeme → Prop
  | atom word => word.toList ≠ [] ∧ ∀ c ∈ word.toList, Token.isAtomChar c = true
  | _ => True

theorem Writes.wellFormed {spells : List Char → List Char → Prop} (writes : lexeme.Writes spells written) :
    lexeme.WellFormed := by
  cases writes with
  | opening | closing | quoted => trivial
  | atom notEmpty chars => exact ⟨notEmpty, fun c member => Token.isAtomChar_iff.mpr (chars c member)⟩

/-- Whether all characters of the lexeme are legible, if it is a string. -/
def isLegible : Lexeme → Bool
  | quoted value => value.toList.all Text.isLegible
  | _ => true

/-- A legible lexeme is printed in a way that the grammar has. -/
theorem Writes.of_legible (printed : lexeme.Writes Text.Escapes written) (legible : lexeme.isLegible = true) :
    lexeme.Writes WritesString written := by
  cases printed with
  | opening => exact .opening
  | closing => exact .closing
  | quoted escapes => exact .quoted (Text.writesString_of_escapes escapes (List.all_eq_true.mp legible))
  | atom notEmpty chars => exact .atom notEmpty chars

/-- Where a lexeme that is not legible is printed, the scanner stops at a malformed token. -/
theorem Writes.malformed (printed : lexeme.Writes Text.Escapes written) (illegible : lexeme.isLegible = false)
    (position : Nat) (text : List Char) :
    ∃ error, Token.scanFrom position (written ++ text) = [.malformed position error] := by
  cases printed with
  | opening | closing | atom => cases illegible
  | @quoted value body escapes =>
    have hidden : ∃ c ∈ value.toList, Text.isLegible c = false := by simpa [isLegible] using illegible
    obtain ⟨error, read⟩ :=
      Token.readQuoted_of_not_legible escapes hidden position [] (position + 1) ('"' :: text)
    refine ⟨error, ?_⟩
    have joined : '"' :: body ++ ['"'] ++ text = '"' :: (body ++ '"' :: text) := by simp
    rw [joined, Token.scanFrom_malformed read]

end Lexeme

namespace LaysOut
variable {lexemes : List Lexeme} {text : List Char}

theorem wellFormed {spells : List Char → List Char → Prop} (laid : LaysOut spells lexemes text) :
    ∀ lexeme ∈ lexemes, lexeme.WellFormed := by
  induction laid with
  | nil => exact fun _ absent => nomatch absent
  | cons _ writes _ _ ih => exact List.forall_mem_cons.mpr ⟨writes.wellFormed, ih⟩

/-- Printed lexemes are laid out as the grammar has it if all of them are legible. -/
theorem of_legible (printed : LaysOut Text.Escapes lexemes text)
    (legible : ∀ lexeme ∈ lexemes, lexeme.isLegible = true) : LaysOut WritesString lexemes text := by
  induction printed with
  | nil blank => exact .nil blank
  | cons blank writes _ apart ih =>
    obtain ⟨first, others⟩ := List.forall_mem_cons.mp legible
    exact .cons blank (writes.of_legible first) (ih others) apart

/-- If some printed lexeme is not legible, the scanner comes to a malformed token. -/
theorem malformed (printed : LaysOut Text.Escapes lexemes text)
    (illegible : ∃ lexeme ∈ lexemes, lexeme.isLegible = false) (position : Nat) :
    none ∈ Token.lexemes (Token.scanFrom position text) := by
  induction printed generalizing position with
  | nil =>
    obtain ⟨lexeme, absent, -⟩ := illegible
    cases absent
  | @cons gap written text lexeme lexemes blank writes laid apart ih =>
    obtain ⟨first, skipped⟩ := Token.scanFrom_gap blank position (written ++ text)
    rw [List.append_assoc, skipped]
    -- Legible lexemes are scanned one after the other, up to the first that is not.
    cases legible : lexeme.isLegible with
    | true =>
      have later : ∃ lexeme ∈ lexemes, lexeme.isLegible = false := by simpa [legible] using illegible
      obtain ⟨token, next, -, scanned⟩ := Token.scanFrom_lexeme (writes.of_legible legible)
        (fun isAtom => laid.endsAtom (apart isAtom)) first
      rw [scanned]
      exact List.mem_cons_of_mem _ (ih later next)
    | false =>
      obtain ⟨error, scanned⟩ := writes.malformed legible first text
      rw [scanned]
      exact List.mem_singleton_self none

end LaysOut

namespace Shape

/-- Whether the s-expression can be written at all. -/
def WellFormed (shape : Shape) : Prop :=
  ∀ lexeme ∈ shape.lexemes, lexeme.WellFormed

/-- Whether all strings of the s-expression are legible. -/
def IsLegible (shape : Shape) : Prop :=
  ∀ lexeme ∈ shape.lexemes, lexeme.isLegible = true

/-- What holds of parentheses holds of all lexemes of a list if it does of those of its items. -/
theorem forall_mem_lexemes_list (holds : Lexeme → Prop) (opening : holds .opening) (closing : holds .closing)
    {items : List Shape} :
    (∀ lexeme ∈ (list items).lexemes, holds lexeme) ↔ ∀ item ∈ items, ∀ lexeme ∈ item.lexemes, holds lexeme := by
  have inner : (∀ lexeme ∈ lexemesEach items, holds lexeme) ↔
      ∀ item ∈ items, ∀ lexeme ∈ item.lexemes, holds lexeme := by
    induction items with
    | nil => simp [lexemesEach]
    | cons item rest ih => simp only [lexemesEach, List.forall_mem_append, List.forall_mem_cons, ih]
  rw [← inner, lexemes, List.forall_mem_cons, List.forall_mem_append, List.forall_mem_singleton]
  exact ⟨fun all => all.2.1, fun all => ⟨opening, all, closing⟩⟩

@[simp] theorem wellFormed_atom {word : String} :
    (atom word).WellFormed ↔ word.toList ≠ [] ∧ ∀ c ∈ word.toList, Token.isAtomChar c = true :=
  List.forall_mem_singleton

@[simp] theorem wellFormed_quoted {value : String} : (quoted value).WellFormed :=
  List.forall_mem_singleton.mpr trivial

@[simp] theorem wellFormed_list {items : List Shape} :
    (list items).WellFormed ↔ ∀ item ∈ items, item.WellFormed :=
  forall_mem_lexemes_list Lexeme.WellFormed trivial trivial

@[simp] theorem isLegible_atom {word : String} : (atom word).IsLegible :=
  List.forall_mem_singleton.mpr rfl

@[simp] theorem isLegible_quoted {value : String} :
    (quoted value).IsLegible ↔ ∀ c ∈ value.toList, Text.isLegible c = true :=
  List.forall_mem_singleton.trans List.all_eq_true

@[simp] theorem isLegible_list {items : List Shape} : (list items).IsLegible ↔ ∀ item ∈ items, item.IsLegible :=
  forall_mem_lexemes_list (fun lexeme => lexeme.isLegible = true) rfl rfl

mutual

/-- The s-expression with single blanks between the items of a list. -/
def text : Shape → List Char
  | atom word => word.toList
  | quoted value => (Text.quote value).toList
  | list [] => ['(', ')']
  | list (head :: rest) => '(' :: (text head ++ (textEach rest ++ [')']))

/-- The texts of s-expressions, each after a blank. -/
def textEach : List Shape → List Char
  | [] => []
  | shape :: rest => ' ' :: (text shape ++ textEach rest)

end

theorem endsAtom_textEach (shapes : List Shape) {after : List Char} (ends : Token.EndsAtom after) :
    Token.EndsAtom (textEach shapes ++ after) := by
  cases shapes with
  | nil => exact ends
  | cons shape rest =>
    intro c head
    obtain rfl := Option.some.inj head
    rfl

mutual

/-- The text of an s-expression lays out its lexemes, before anything that ends atoms. -/
theorem laysOut_text (shape : Shape) (formed : shape.WellFormed) {lexemes : List Lexeme} {after : List Char}
    (laid : LaysOut Text.Escapes lexemes after) (ends : Token.EndsAtom after) :
    LaysOut Text.Escapes (shape.lexemes ++ lexemes) (shape.text ++ after) := by
  match shape with
  | atom word =>
    obtain ⟨notEmpty, chars⟩ := wellFormed_atom.mp formed
    exact .lead (.atom notEmpty fun c member => Token.isAtomChar_iff.mp (chars c member)) laid fun _ => ends
  | quoted value =>
    have quoted : (Lexeme.quoted value).Writes Text.Escapes (Text.quote value).toList := by
      rw [Text.quote, String.toList_ofList]
      exact .quoted rfl
    exact .lead quoted laid fun isAtom => nomatch isAtom
  | list [] => exact laid.closing.opening
  | list (head :: rest) =>
    have closes : Token.EndsAtom (')' :: after) := by
      intro c first
      obtain rfl := Option.some.inj first
      rfl
    obtain ⟨first, others⟩ := List.forall_mem_cons.mp (wellFormed_list.mp formed)
    have items := laysOut_text head first (laysOut_textEach rest others laid.closing closes)
      (endsAtom_textEach rest closes)
    simpa [Shape.lexemes, lexemesEach, text] using items.opening

theorem laysOut_textEach (shapes : List Shape) (formed : ∀ shape ∈ shapes, shape.WellFormed)
    {lexemes : List Lexeme} {after : List Char} (laid : LaysOut Text.Escapes lexemes after)
    (ends : Token.EndsAtom after) :
    LaysOut Text.Escapes (lexemesEach shapes ++ lexemes) (textEach shapes ++ after) := by
  match shapes with
  | [] => exact laid
  | shape :: rest =>
    obtain ⟨first, others⟩ := List.forall_mem_cons.mp formed
    have items := laysOut_text shape first (laysOut_textEach rest others laid ends) (endsAtom_textEach rest ends)
    have apart := LaysOut.blank (c := ' ') rfl items
    simpa [lexemesEach, textEach] using apart

end

theorem laysOut (shape : Shape) (formed : shape.WellFormed) : LaysOut Text.Escapes shape.lexemes shape.text := by
  have nothing : LaysOut Text.Escapes [] [] := .nil fun _ absent => nomatch absent
  simpa using shape.laysOut_text formed nothing fun _ absent => nomatch absent

/-- A text that prints a legible s-expression is a rendering of what is written as that. -/
theorem rendering_of_isLegible {written : Shape → Prop} {shape : Shape} {text : String} (printed : written shape)
    (formed : shape.WellFormed) (same : text.toList = shape.text) (legible : shape.IsLegible) :
    Rendering written text :=
  ⟨shape, printed, same ▸ (shape.laysOut formed).of_legible legible⟩

/-- A text that prints an s-expression is not read at all unless that is legible. -/
theorem parse_of_not_isLegible {shape : Shape} {text : String} (formed : shape.WellFormed)
    (same : text.toList = shape.text) (illegible : ¬ shape.IsLegible) : ∃ error, Sexp.parse text = .error error := by
  have somewhere : ∃ lexeme ∈ shape.lexemes, lexeme.isLegible = false := by simpa [IsLegible] using illegible
  cases parsed : Sexp.parse text with
  | error problem => exact ⟨problem, rfl⟩
  | ok sexp =>
    have malformed := (shape.laysOut formed).malformed somewhere 0
    rw [← same, (Sexp.laysOut_of_parse parsed).scanned 0] at malformed
    obtain ⟨_, _, absent⟩ := List.mem_map.mp malformed
    cases absent

end Shape

end QueryOptimizer
