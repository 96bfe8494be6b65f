import QueryOptimizer.Expression.Token
import QueryOptimizer.Proofs.Expression.Grammar

/-!
The scanner finds the lexemes that a text lays out, and no others. An atom goes on for as long as it can, and
so whatever follows it has to start with a character that no atom has.
-/
namespace QueryOptimizer

namespace Token
variable {start position : Nat} {before value body written text after : List Char} {c : Char}

/-- The lexeme that a token is an occurrence of. -/
def lexeme? : Token → Option Lexeme
  | opening _ => some .opening
  | closing _ => some .closing
  | quoted _ value => some (.quoted value)
  | atom _ word => some (.atom word)
  | malformed _ _ => none

theorem eq_opening_of_lexeme? {token : Token} (same : token.lexeme? = some .opening) :
    ∃ position, token = opening position := by
  cases token with
  | opening position => exact ⟨position, rfl⟩
  | _ => cases same

theorem eq_closing_of_lexeme? {token : Token} (same : token.lexeme? = some .closing) :
    ∃ position, token = closing position := by
  cases token with
  | closing position => exact ⟨position, rfl⟩
  | _ => cases same

theorem eq_quoted_of_lexeme? {token : Token} {value : String} (same : token.lexeme? = some (.quoted value)) :
    ∃ position, token = quoted position value := by
  cases token with
  | quoted position other =>
    cases same
    exact ⟨position, rfl⟩
  | _ => cases same

theorem eq_atom_of_lexeme? {token : Token} {word : String} (same : token.lexeme? = some (.atom word)) :
    ∃ position, token = atom position word := by
  cases token with
  | atom position other =>
    cases same
    exact ⟨position, rfl⟩
  | _ => cases same

/-- The lexemes of tokens; in place of a malformed one there is none. -/
def lexemes (tokens : List Token) : List (Option Lexeme) :=
  tokens.map lexeme?

/-- What the first token and the others are occurrences of. -/
theorem lexemes_cons_eq {token : Token} {tokens : List Token} {lexemes : List Lexeme}
    (found : Token.lexemes (token :: tokens) = lexemes.map some) :
    ∃ lexeme rest, lexemes = lexeme :: rest ∧ token.lexeme? = some lexeme ∧
      Token.lexemes tokens = rest.map some := by
  cases lexemes with
  | nil => cases found
  | cons lexeme rest =>
    obtain ⟨first, others⟩ := List.cons_eq_cons.mp found
    exact ⟨lexeme, rest, rfl, first, others⟩

/-- A written character is read back, whatever comes next. -/
theorem readQuoted_char (writes : WritesChar c written) (start : Nat) (before : List Char) (position : Nat) :
    ∃ next, ∀ text, readQuoted start before position (written ++ text) =
      readQuoted start (c :: before) next text := by
  cases writes with
  | raw notQuote notBackslash =>
    refine ⟨position + c.utf8Size, fun text => ?_⟩
    rw [List.singleton_append, readQuoted] <;> simp_all
  | newline | tab | quote | backslash => exact ⟨position + 2, fun _ => rfl⟩

theorem readQuoted_string (writes : WritesString value body) (start : Nat) (before after : List Char)
    (position : Nat) :
    ∃ next, readQuoted start before position (body ++ '"' :: after) =
      .ok (String.ofList (before.reverse ++ value), next, after) := by
  induction writes generalizing before position with
  | nil => exact ⟨position + 1, by simp [readQuoted]⟩
  | cons char _ ih =>
    obtain ⟨middle, read⟩ := readQuoted_char char start before position
    obtain ⟨next, rest⟩ := ih (_ :: before) middle
    refine ⟨next, ?_⟩
    rw [List.append_assoc, read, rest, List.reverse_cons, List.append_assoc, List.singleton_append]

/-- The text starts with a written string and the closing quote, and the result is that string after the
characters read before. -/
def ReadAs (before : List Char) (result : String) (text after : List Char) : Prop :=
  ∃ value body, WritesString value body ∧ result = String.ofList (before.reverse ++ value) ∧
    text = body ++ '"' :: after

theorem ReadAs.extend {result : String} (writes : WritesChar c written)
    (rest : ReadAs (c :: before) result text after) : ReadAs before result (written ++ text) after := by
  obtain ⟨value, body, string, same, parts⟩ := rest
  refine ⟨c :: value, written ++ body, .cons writes string, ?_, ?_⟩
  · simpa using same
  · rw [parts, List.append_assoc]

/-- What is read as a quoted string was written as one. -/
theorem readAs_of_readQuoted {result : String} {next : Nat}
    (read : readQuoted start before position text = .ok (result, next, after)) :
    ReadAs before result text after := by
  fun_induction readQuoted start before position text with
  | case1 => cases read
  | case2 =>
    cases read
    exact ⟨[], [], .nil, by simp, rfl⟩
  | case3 _ _ _ ih => exact .extend .newline (ih read)
  | case4 _ _ _ ih => exact .extend .tab (ih read)
  | case5 _ _ _ ih => exact .extend .quote (ih read)
  | case6 _ _ _ ih => exact .extend .backslash (ih read)
  | case7 => cases read
  | case8 _ _ _ _ notQuote _ _ _ _ notBackslash ih => exact .extend (.raw notQuote notBackslash) (ih read)

/-- The text does not go on with a character of an atom. -/
def EndsAtom (text : List Char) : Prop :=
  ∀ c ∈ text.head?, isAtomChar c = false

theorem isAtomChar_iff : isAtomChar c = true ↔ Text.isBlank c = false ∧ c ≠ '(' ∧ c ≠ ')' ∧ c ≠ '"' := by
  simp [isAtomChar, and_assoc]

theorem isAtomChar_of_isBlank (blank : Text.isBlank c = true) : isAtomChar c = false := by
  simp [isAtomChar, blank]

theorem scanFrom_gap {gap : List Char} (blank : ∀ c ∈ gap, Text.isBlank c = true) (position : Nat)
    (text : List Char) : ∃ next, scanFrom position (gap ++ text) = scanFrom next text := by
  induction gap generalizing position with
  | nil => exact ⟨position, rfl⟩
  | cons c rest ih =>
    obtain ⟨next, scanned⟩ := ih (fun other member => blank other (List.mem_cons_of_mem _ member))
      (position + c.utf8Size)
    refine ⟨next, ?_⟩
    rw [List.cons_append, scanFrom, if_pos (blank c (List.mem_cons_self ..)), scanned]

theorem scanFrom_opening (position : Nat) (text : List Char) :
    scanFrom position ('(' :: text) = opening position :: scanFrom (position + 1) text := by
  rw [scanFrom, if_neg (by decide), if_pos rfl]

theorem scanFrom_closing (position : Nat) (text : List Char) :
    scanFrom position (')' :: text) = closing position :: scanFrom (position + 1) text := by
  rw [scanFrom, if_neg (by decide), if_neg (by decide), if_pos rfl]

theorem scanFrom_quoted {result : String} {next : Nat}
    (read : readQuoted position [] (position + 1) text = .ok (result, next, after)) :
    scanFrom position ('"' :: text) = quoted position result :: scanFrom next after := by
  rw [scanFrom, if_neg (by decide), if_neg (by decide), if_neg (by decide), if_pos rfl]
  split
  · rename_i failed
    cases read.symm.trans failed
  · rename_i succeeded
    cases read.symm.trans succeeded
    rfl

theorem scanFrom_malformed {error : ParseError}
    (read : readQuoted position [] (position + 1) text = .error error) :
    scanFrom position ('"' :: text) = [malformed position error] := by
  rw [scanFrom, if_neg (by decide), if_neg (by decide), if_neg (by decide), if_pos rfl]
  split
  · rename_i failed
    cases read.symm.trans failed
    rfl
  · rename_i succeeded
    cases read.symm.trans succeeded

theorem scanFrom_atomChar (char : isAtomChar c = true) (position : Nat) (text : List Char) :
    scanFrom position (c :: text) = atom position (String.ofList (c :: text.takeWhile isAtomChar)) ::
      scanFrom (position + byteLength (c :: text.takeWhile isAtomChar)) (text.dropWhile isAtomChar) := by
  obtain ⟨notBlank, notOpening, notClosing, notQuote⟩ := isAtomChar_iff.mp char
  rw [scanFrom, if_neg (by simp [notBlank]), if_neg notOpening, if_neg notClosing, if_neg notQuote]

/-- An atom is scanned as a whole if the text does not go on with a character of it. -/
theorem scanFrom_atom {word : List Char} (notEmpty : word ≠ []) (chars : ∀ c ∈ word, isAtomChar c = true)
    (ends : EndsAtom text) (position : Nat) :
    scanFrom position (word ++ text) =
      atom position (String.ofList word) :: scanFrom (position + byteLength word) text := by
  cases word with
  | nil => exact absurd rfl notEmpty
  | cons c rest =>
    have stops : text.takeWhile isAtomChar = [] ∧ text.dropWhile isAtomChar = text := by
      cases text with
      | nil => exact ⟨rfl, rfl⟩
      | cons other _ => simp [ends other rfl]
    have inner : ∀ c ∈ rest, isAtomChar c = true := fun other member => chars other (List.mem_cons_of_mem _ member)
    rw [List.cons_append, scanFrom_atomChar (chars c (List.mem_cons_self ..)),
      List.takeWhile_append_of_pos inner, List.dropWhile_append_of_pos inner, stops.1, stops.2, List.append_nil]

/-- A written lexeme is scanned as one token, whatever comes next, if an atom ends there. -/
theorem scanFrom_lexeme {lexeme : Lexeme} (writes : lexeme.Writes WritesString written)
    (ends : lexeme.isAtom = true → EndsAtom text) (position : Nat) :
    ∃ token next, token.lexeme? = some lexeme ∧
      scanFrom position (written ++ text) = token :: scanFrom next text := by
  cases writes with
  | opening => exact ⟨_, _, rfl, scanFrom_opening position text⟩
  | closing => exact ⟨_, _, rfl, scanFrom_closing position text⟩
  | @quoted value body string =>
    obtain ⟨next, read⟩ := readQuoted_string string position [] text (position + 1)
    refine ⟨.quoted position value, next, rfl, ?_⟩
    have joined : '"' :: body ++ ['"'] ++ text = '"' :: (body ++ '"' :: text) := by simp
    rw [joined, scanFrom_quoted read]
    simp
  | @atom word notEmpty chars =>
    refine ⟨.atom position word, position + byteLength word.toList, rfl, ?_⟩
    rw [scanFrom_atom notEmpty (fun c member => isAtomChar_iff.mpr (chars c member)) (ends rfl),
      String.ofList_toList]

end Token

/-- The first character of a lexeme tells whether it is an atom. -/
theorem Lexeme.Writes.head {spells : List Char → List Char → Prop} {lexeme : Lexeme} {written : List Char}
    (writes : lexeme.Writes spells written) :
    ∃ c ∈ written.head?, Token.isAtomChar c = lexeme.isAtom := by
  cases writes with
  | opening | closing | quoted => exact ⟨_, rfl, rfl⟩
  | @atom word notEmpty chars =>
    obtain ⟨c, rest, parts⟩ := List.exists_cons_of_ne_nil notEmpty
    exact ⟨c, by simp [parts], Token.isAtomChar_iff.mpr (chars c (by simp [parts]))⟩

namespace LaysOut
variable {spells : List Char → List Char → Prop} {lexeme : Lexeme} {lexemes : List Lexeme}
variable {written text : List Char}

/-- Where lexemes are laid out so that the first is apart from an atom before, an atom before ends. -/
theorem endsAtom (laid : LaysOut spells lexemes text)
    (apart : ∀ next ∈ lexemes.head?, next.isAtom = true → ∃ c ∈ text.head?, Text.isBlank c = true) :
    Token.EndsAtom text := by
  cases laid with
  | nil blank =>
    intro c head
    exact Token.isAtomChar_of_isBlank (blank c (List.mem_of_mem_head? head))
  | @cons gap written rest lexeme _ blank writes _ _ =>
    intro c head
    cases gap with
    | cons other gap =>
      obtain rfl := Option.some.inj head
      exact Token.isAtomChar_of_isBlank (blank _ (List.mem_cons_self ..))
    | nil =>
      cases isAtom : lexeme.isAtom with
      | true =>
        obtain ⟨other, first, isBlank⟩ := apart lexeme rfl isAtom
        obtain rfl := Option.some.inj (head.symm.trans first)
        exact Token.isAtomChar_of_isBlank isBlank
      | false =>
        obtain ⟨other, first, delimiter⟩ := writes.head
        obtain ⟨tail, rfl⟩ := List.head?_eq_some_iff.mp first
        obtain rfl := Option.some.inj head
        exact delimiter.trans isAtom

theorem blank {c : Char} (isBlank : Text.isBlank c = true) (laid : LaysOut spells lexemes text) :
    LaysOut spells lexemes (c :: text) := by
  cases laid with
  | nil blank => exact .nil (List.forall_mem_cons.mpr ⟨isBlank, blank⟩)
  | cons blank writes rest apart =>
    exact .cons (List.forall_mem_cons.mpr ⟨isBlank, blank⟩) writes rest apart

/-- Without blanks, a lexeme can stand before others as long as it is no atom, or the text after it ends
atoms. -/
theorem lead (writes : lexeme.Writes spells written) (laid : LaysOut spells lexemes text)
    (ends : lexeme.isAtom = true → Token.EndsAtom text) :
    LaysOut spells (lexeme :: lexemes) (written ++ text) := by
  -- Were the next lexeme an atom without a blank before it, the text would go on with a character of it.
  suffices apart : lexeme.isAtom = true → ∀ next ∈ lexemes.head?, next.isAtom = true →
      ∃ c ∈ text.head?, Text.isBlank c = true from
    .cons (fun _ absent => nomatch (absent : _ ∈ [])) writes laid apart
  intro isAtom next first nextIsAtom
  have stops := ends isAtom
  cases laid with
  | nil => cases first
  | @cons gap written rest lexeme _ blank writes _ _ =>
    obtain rfl := Option.some.inj first
    cases gap with
    | cons c gap => exact ⟨c, rfl, blank c (List.mem_cons_self ..)⟩
    | nil =>
      obtain ⟨c, head, char⟩ := writes.head
      obtain ⟨tail, rfl⟩ := List.head?_eq_some_iff.mp head
      exact absurd ((stops c rfl).symm.trans (char.trans nextIsAtom)) (by decide)

theorem opening (laid : LaysOut spells lexemes text) : LaysOut spells (.opening :: lexemes) ('(' :: text) :=
  .lead .opening laid fun isAtom => nomatch isAtom

theorem closing (laid : LaysOut spells lexemes text) : LaysOut spells (.closing :: lexemes) (')' :: text) :=
  .lead .closing laid fun isAtom => nomatch isAtom

/-- The scanner finds the lexemes that a text lays out. -/
theorem scanned (laid : LaysOut WritesString lexemes text) (position : Nat) :
    Token.lexemes (Token.scanFrom position text) = lexemes.map some := by
  induction laid generalizing position with
  | nil blank =>
    obtain ⟨next, scanned⟩ := Token.scanFrom_gap blank position []
    rw [List.append_nil] at scanned
    rw [scanned, Token.scanFrom]
    rfl
  | @cons gap written text lexeme _ blank writes laid apart ih =>
    obtain ⟨first, skipped⟩ := Token.scanFrom_gap blank position (written ++ text)
    have ends (isAtom : lexeme.isAtom = true) : Token.EndsAtom text :=
      laid.endsAtom (apart isAtom)
    obtain ⟨token, next, same, scanned⟩ := Token.scanFrom_lexeme writes ends first
    rw [List.append_assoc, skipped, scanned]
    exact List.cons_eq_cons.mpr ⟨same, ih next⟩

end LaysOut

/-- A text lays out the lexemes that the scanner finds, if all of its tokens are well formed. -/
theorem Token.laysOut_of_lexemes {position : Nat} {text : List Char} {lexemes : List Lexeme}
    (found : Token.lexemes (scanFrom position text) = lexemes.map some) :
    LaysOut WritesString lexemes text := by
  fun_induction scanFrom position text generalizing lexemes with
  | case1 position =>
    obtain rfl := List.map_eq_nil_iff.mp found.symm
    exact .nil fun _ absent => nomatch absent
  | case2 position c rest isBlank ih => exact .blank isBlank (ih found)
  | case3 position rest notBlank ih =>
    obtain ⟨_, others, rfl, same, later⟩ := lexemes_cons_eq found
    obtain rfl := Option.some.inj same
    exact (ih later).opening
  | case4 position rest notBlank notOpening ih =>
    obtain ⟨_, others, rfl, same, later⟩ := lexemes_cons_eq found
    obtain rfl := Option.some.inj same
    exact (ih later).closing
  | case5 position rest error read =>
    obtain ⟨_, others, rfl, same, -⟩ := lexemes_cons_eq found
    cases same
  | case6 position rest value next after read _ _ _ ih =>
    obtain ⟨_, others, rfl, same, later⟩ := lexemes_cons_eq found
    obtain rfl := Option.some.inj same
    obtain ⟨characters, body, writes, rfl, rfl⟩ := readAs_of_readQuoted read
    have quoted : (Lexeme.quoted (String.ofList characters)).Writes WritesString ('"' :: body ++ ['"']) :=
      .quoted (by simpa using writes)
    have joined : '"' :: body ++ ['"'] ++ after = '"' :: (body ++ '"' :: after) := by simp
    exact joined ▸ .lead quoted (ih later) fun isAtom => nomatch isAtom
  | case7 position c rest notBlank notOpening notClosing notQuote word =>
    rename_i ih
    obtain ⟨_, others, rfl, same, later⟩ := lexemes_cons_eq found
    obtain rfl := Option.some.inj same
    have char : isAtomChar c = true := isAtomChar_iff.mpr ⟨by simpa using notBlank, notOpening, notClosing, notQuote⟩
    have chars : ∀ c ∈ word, isAtomChar c = true :=
      List.forall_mem_cons.mpr ⟨char, List.all_eq_true.mp List.all_takeWhile⟩
    have atom : (Lexeme.atom (String.ofList word)).Writes WritesString word := by
      have writes : (Lexeme.atom (String.ofList word)).Writes WritesString (String.ofList word).toList :=
        .atom (by simp [word]) fun c member => isAtomChar_iff.mp (chars c (by simpa using member))
      rwa [String.toList_ofList] at writes
    have parts : word ++ rest.dropWhile isAtomChar = c :: rest :=
      congrArg (c :: ·) List.takeWhile_append_dropWhile
    -- The atom is as long as it can be, and so what is left does not go on with it.
    have ends : EndsAtom (rest.dropWhile isAtomChar) := by
      intro other head
      have stops := List.head?_dropWhile_not isAtomChar rest
      rwa [head] at stops
    exact parts ▸ .lead atom (ih later) fun _ => ends

end QueryOptimizer
