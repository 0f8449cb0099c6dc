import CrossAsm.Text.Blank
import CrossAsm.Text.Case
import CrossAsm.Text.Utf8
import CrossAsm.Token

/-!
# CrossAsm — reading tokens

The source is cut from left to right into pieces: blanks, comments and lexemes. A piece keeps the
characters it takes, so that the pieces of a source are the source (`piece_split`), and each of them
takes at least one character, which ends the loop.
-/

namespace CrossAsm.Token

/-- A piece of source: the lexeme it holds, if it is not a blank or a comment, the characters it
takes and the characters behind it. -/
structure Piece where
  lexeme : Option Lexeme
  taken : List Char
  rest : List Char

-- --------
-- Names and numbers
-- --------

/-- The characters of a name behind its first one. -/
def isNameChar (c : Char) : Bool := c.isAlphanum || c == '_'

/-- The apostrophe, which quotes character literals. -/
def apostrophe : Char := '\x27'

/-- A name. The shadow register pair `AF'` is the only one with an apostrophe. -/
def namePiece (c : Char) (cs : List Char) : Piece :=
  let word := c :: cs.takeWhile isNameChar
  match cs.dropWhile isNameChar with
  | [] => ⟨some (.identifier (String.ofList word)), word, []⟩
  | d :: ds =>
    if d = apostrophe ∧ Text.sameWord (String.ofList word) "af" then
      ⟨some (.identifier (String.ofList (word ++ [d]))), word ++ [d], ds⟩
    else ⟨some (.identifier (String.ofList word)), word, d :: ds⟩

/-- The digits and the radix of a literal that starts with a digit, in lower case and without
underscores: `0x1f`, `1fh`, `0b11` or decimal, tried in this order. -/
def digitsAndRadix (literal : List Char) : List Char × Nat :=
  match literal with
  | '0' :: 'x' :: digits => (digits, 16)
  | _ =>
    if literal.getLast? = some 'h' ∧ literal.dropLast ≠ [] ∧ literal.dropLast.all (Text.isDigitIn 16)
    then (literal.dropLast, 16)
    else
      match literal with
      | '0' :: 'b' :: digits => (digits, 2)
      | _ => (literal, 10)

/-- A number that starts with a digit. Underscores between its digits do not count. -/
def numberPiece (pos : Nat) (c : Char) (cs : List Char) : Except Diagnostic Piece :=
  let word := c :: cs.takeWhile isNameChar
  let literal := (word.map Char.toLower).filter (· ≠ '_')
  let (digits, radix) := digitsAndRadix literal
  match Text.number radix digits with
  | .ok v => .ok ⟨some (.number v), word, cs.dropWhile isNameChar⟩
  | .error fault => .error (.invalidNumber fault ⟨pos, literal.length⟩)

/-- A number behind a character that says its radix. -/
def radixPiece (radix pos : Nat) (c : Char) (cs : List Char) : Except Diagnostic Piece :=
  let digits := cs.takeWhile (Text.isDigitIn radix)
  match Text.number radix digits with
  | .ok v => .ok ⟨some (.number v), c :: digits, cs.dropWhile (Text.isDigitIn radix)⟩
  | .error fault => .error (.invalidNumber fault ⟨pos, digits.length + 1⟩)

/-- Whether a digit of the radix comes next. -/
def digitNext (radix : Nat) : List Char → Bool
  | [] => false
  | c :: _ => Text.isDigitIn radix c

-- --------
-- Strings and characters
-- --------

/-- The character an escape stands for. -/
def escaped? (c : Char) : Option Char :=
  if c = '"' ∨ c = apostrophe ∨ c = '\\' then some c
  else if c = 'n' then some '\n'
  else if c = 'r' then some '\r'
  else if c = 't' then some '\t'
  else if c = '0' then some (Char.ofNat 0)
  else none

/-- An escape at byte `pos` that is none. -/
def badEscape (c : Char) (pos : Nat) : Diagnostic :=
  .expectedToken "one of the escape characters ' \" \\ n r t 0" c.toString ⟨pos, c.utf8Size⟩

/-- A backslash that ends a source of `stop` bytes. -/
def cutEscape (stop : Nat) : Diagnostic := .unexpectedEnd "escape sequence" ⟨stop - 1, 0⟩

/-- The rest of a string behind its opening quote: its content, the characters taken with the closing
quote, and the characters behind it. The string starts at byte `start` of a source of `stop` bytes
and its rest at byte `pos`. -/
def stringBody (start stop : Nat) :
    Nat → List Char → Except Diagnostic (List Char × List Char × List Char)
  | _, [] => .error (.unexpectedEnd "'\"'" ⟨start, stop - start⟩)
  | pos, c :: cs =>
    if c = '"' then .ok ([], [c], cs)
    else if c = '\\' then
      match cs with
      | [] => .error (cutEscape stop)
      | e :: es =>
        match escaped? e with
        | none => .error (badEscape e (pos + c.utf8Size))
        | some x =>
          match stringBody start stop (pos + c.utf8Size + e.utf8Size) es with
          | .error d => .error d
          | .ok (content, taken, rest) => .ok (x :: content, c :: e :: taken, rest)
    else
      match stringBody start stop (pos + c.utf8Size) cs with
      | .error d => .error d
      | .ok (content, taken, rest) => .ok (c :: content, c :: taken, rest)

/-- A string whose opening quote `c` stands at byte `pos`. -/
def stringPiece (stop pos : Nat) (c : Char) (cs : List Char) : Except Diagnostic Piece :=
  match stringBody pos stop (pos + c.utf8Size) cs with
  | .error d => .error d
  | .ok (content, taken, rest) => .ok ⟨some (.text (String.ofList content)), c :: taken, rest⟩

/-- The closing quote of a character literal, expected at byte `pos`. -/
def closeCharacter (start stop pos : Nat) (x : Char) (taken cs : List Char) : Except Diagnostic Piece :=
  match cs with
  | [] => .error (.unexpectedEnd "character literal" ⟨start, stop - start⟩)
  | c :: rest =>
    if c = apostrophe then .ok ⟨some (.number (Value.ofNat x.toNat)), taken ++ [c], rest⟩
    else .error (.expectedToken "closing quote" c.toString ⟨pos, c.utf8Size⟩)

/-- A character literal whose opening quote `c` stands at byte `pos`. Any character can stand in it,
also a quote or a line feed. -/
def characterPiece (stop pos : Nat) (c : Char) (cs : List Char) : Except Diagnostic Piece :=
  match cs with
  | [] => .error (.unexpectedEnd "character literal" ⟨pos, stop - pos⟩)
  | x :: xs =>
    if x = '\\' then
      match xs with
      | [] => .error (cutEscape stop)
      | e :: es =>
        match escaped? e with
        | none => .error (badEscape e (pos + c.utf8Size + x.utf8Size))
        | some y =>
          closeCharacter pos stop (pos + c.utf8Size + x.utf8Size + e.utf8Size) y [c, x, e] es
    else closeCharacter pos stop (pos + c.utf8Size + x.utf8Size) x [c, x] xs

-- --------
-- Pieces
-- --------

/-- Punctuation; `<<` and `>>` are single marks. -/
def markPiece (pos : Nat) (c : Char) (cs : List Char) : Except Diagnostic Piece :=
  match c, cs with
  | '<', '<' :: rest => .ok ⟨some (.mark .doubleLess), ['<', '<'], rest⟩
  | '>', '>' :: rest => .ok ⟨some (.mark .doubleGreater), ['>', '>'], rest⟩
  | _, _ =>
    match Mark.ofChar? c with
    | some m => .ok ⟨some (.mark m), [c], cs⟩
    | none => .error (.unexpectedCharacter c ⟨pos, c.utf8Size⟩)

/-- The piece that starts with `c` at byte `pos` of a source of `stop` bytes. `afterValue` says
whether the token before it can end a value. -/
def piece (stop pos : Nat) (afterValue : Bool) (c : Char) (cs : List Char) : Except Diagnostic Piece :=
  if c = '\n' then .ok ⟨some .newline, [c], cs⟩
  else if Text.isBlank c then .ok ⟨none, [c], cs⟩
  else if c = ';' then .ok ⟨none, c :: cs.takeWhile (· ≠ '\n'), cs.dropWhile (· ≠ '\n')⟩
  else if c = '"' then stringPiece stop pos c cs
  else if c = apostrophe then characterPiece stop pos c cs
  else if c.isAlpha || c == '_' then .ok (namePiece c cs)
  else if c.isDigit then numberPiece pos c cs
  else if c == '$' && digitNext 16 cs then radixPiece 16 pos c cs
  else if c == '%' && !afterValue && digitNext 2 cs then radixPiece 2 pos c cs
  else markPiece pos c cs

-- --------
-- A piece takes a first part of the source
-- --------

theorem namePiece_split (c : Char) (cs : List Char) :
    ∃ ts, (namePiece c cs).taken = c :: ts ∧ ts ++ (namePiece c cs).rest = cs := by
  have h := List.takeWhile_append_dropWhile (p := isNameChar) (l := cs)
  unfold namePiece
  split
  · rename_i hd
    exact ⟨_, rfl, by rw [hd] at h; exact h⟩
  · rename_i d ds hd
    rw [hd] at h
    simp only
    split
    · exact ⟨_, rfl, by simpa using h⟩
    · exact ⟨_, rfl, h⟩

theorem stringBody_split {start stop pos : Nat} {cs content taken rest : List Char}
    (h : stringBody start stop pos cs = .ok (content, taken, rest)) : taken ++ rest = cs := by
  fun_induction stringBody start stop pos cs generalizing content taken rest with
  | case1 => cases h
  | case2 => cases h; rfl
  | case3 => cases h
  | case4 => cases h
  | case5 => cases h
  | case6 pos e es x _ content' taken' rest' _ hrec ih =>
    cases h
    simp [ih hrec]
  | case7 => cases h
  | case8 pos c cs hq hc content' taken' rest' hrec ih =>
    cases h
    simp [ih hrec]

theorem closeCharacter_split {start stop pos : Nat} {x : Char} {taken cs : List Char} {p : Piece}
    (h : closeCharacter start stop pos x taken cs = .ok p) :
    ∃ c, p.taken = taken ++ [c] ∧ c :: p.rest = cs := by
  unfold closeCharacter at h
  split at h
  · cases h
  · split at h
    · cases h; exact ⟨_, rfl, rfl⟩
    · cases h

/-- A piece takes the character it starts with, and what it takes and what it leaves are the
source. -/
theorem piece_split {stop pos : Nat} {afterValue : Bool} {c : Char} {cs : List Char} {p : Piece}
    (h : piece stop pos afterValue c cs = .ok p) :
    ∃ ts, p.taken = c :: ts ∧ ts ++ p.rest = cs := by
  unfold piece at h
  split at h
  · cases h; exact ⟨[], rfl, rfl⟩
  split at h
  · cases h; exact ⟨[], rfl, rfl⟩
  split at h
  · cases h; exact ⟨_, rfl, List.takeWhile_append_dropWhile⟩
  split at h
  · unfold stringPiece at h
    split at h
    · cases h
    · rename_i hb
      cases h
      exact ⟨_, rfl, stringBody_split hb⟩
  split at h
  · unfold characterPiece at h
    split at h
    · cases h
    · split at h
      · split at h
        · cases h
        · split at h
          · cases h
          · obtain ⟨d, ht, hr⟩ := closeCharacter_split h
            exact ⟨_, ht, by simp [hr]⟩
      · obtain ⟨d, ht, hr⟩ := closeCharacter_split h
        exact ⟨_, ht, by simp [hr]⟩
  split at h
  · cases h; exact namePiece_split c cs
  split at h
  · unfold numberPiece at h
    simp only at h
    split at h
    · cases h; exact ⟨_, rfl, List.takeWhile_append_dropWhile⟩
    · cases h
  split at h
  · unfold radixPiece at h
    simp only at h
    split at h
    · cases h; exact ⟨_, rfl, List.takeWhile_append_dropWhile⟩
    · cases h
  split at h
  · unfold radixPiece at h
    simp only at h
    split at h
    · cases h; exact ⟨_, rfl, List.takeWhile_append_dropWhile⟩
    · cases h
  · unfold markPiece at h
    split at h
    · cases h; exact ⟨_, rfl, rfl⟩
    · cases h; exact ⟨_, rfl, rfl⟩
    · split at h
      · cases h; exact ⟨[], rfl, rfl⟩
      · cases h

/-- What a piece leaves is shorter than the source. -/
theorem piece_rest_lt {stop pos : Nat} {afterValue : Bool} {c : Char} {cs : List Char} {p : Piece}
    (h : piece stop pos afterValue c cs = .ok p) : p.rest.length < (c :: cs).length := by
  obtain ⟨ts, _, hr⟩ := piece_split h
  rw [← hr]
  simp only [List.length_cons, List.length_append]
  omega

-- --------
-- The tokens of a source
-- --------

/-- The tokens of the characters from byte `pos` on. -/
def scanFrom (stop pos : Nat) (afterValue : Bool) (cs : List Char) : Except Diagnostic (List Token) :=
  match cs with
  | [] => .ok []
  | c :: cs =>
    match _h : piece stop pos afterValue c cs with
    | .error d => .error d
    | .ok p =>
      let size := Text.utf8Length p.taken
      match p.lexeme with
      | none => scanFrom stop (pos + size) afterValue p.rest
      | some l =>
        match scanFrom stop (pos + size) l.endsValue p.rest with
        | .error d => .error d
        | .ok tokens => .ok (⟨l, ⟨pos, size⟩⟩ :: tokens)
termination_by cs.length
decreasing_by all_goals exact piece_rest_lt _h

/-- The tokens of a text, or the first thing in it that is no token. -/
def scanChars (cs : List Char) : Except Diagnostic (List Token) :=
  scanFrom (Text.utf8Length cs) 0 false cs

/-- The tokens of a source. -/
def scan (source : String) : Except Diagnostic (List Token) := scanChars source.toList

end CrossAsm.Token
