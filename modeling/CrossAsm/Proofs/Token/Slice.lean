import CrossAsm.Proofs.Token.Position

/-!
# CrossAsm — cutting words out of a text

A text is cut by the numbers of its bytes, which works only between two characters. `Text.slice?` is a cut that
refuses to be made anywhere else, and the scan of a source never meets its refusal, however the scan ends.

* `Token.Reaches` — the places that the scan of a source comes to.
* `Token.CutsCleanly` — all cuts that are made there are between characters.
* `Text.slice?_of_ascii` — a text of single bytes can be cut everywhere; names are such texts.
-/

namespace CrossAsm

namespace Text

variable {cs front word rest : List Char}

-- --------
-- Cuts
-- --------

/-- The text in front of a byte and the text from there on, if the byte starts a character. -/
def splitAt? : Nat → List Char → Option (List Char × List Char)
  | 0, cs => some ([], cs)
  | _ + 1, [] => none
  | n + 1, c :: cs =>
    if c.utf8Size ≤ n + 1 then
      (splitAt? (n + 1 - c.utf8Size) cs).map fun (front, rest) => (c :: front, rest)
    else none

/-- The text from one byte to another, if both start a character and the second is not before the first. -/
def slice? (cs : List Char) (start stop : Nat) : Option (List Char) :=
  if start ≤ stop then do
    let (_, rest) ← splitAt? start cs
    let (word, _) ← splitAt? (stop - start) rest
    return word
  else none

theorem splitAt?_append (front rest : List Char) :
    splitAt? (utf8Length front) (front ++ rest) = some (front, rest) := by
  induction front with
  | nil => rw [List.nil_append, utf8Length, splitAt?]
  | cons c cs ih =>
    have hPos := c.utf8Size_pos
    obtain ⟨n, hn⟩ : ∃ n, utf8Length (c :: cs) = n + 1 := by
      refine ⟨utf8Length (c :: cs) - 1, ?_⟩
      simp only [utf8Length]
      omega
    have hRest : n + 1 - c.utf8Size = utf8Length cs := by
      rw [← hn]
      simp only [utf8Length]
      omega
    have hLe : c.utf8Size ≤ n + 1 := by
      rw [← hn]
      exact Nat.le_add_right _ _
    rw [hn, List.cons_append, splitAt?, if_pos hLe, hRest, ih]
    rfl

/-- **A word can be cut out** from where it starts to where it ends. -/
theorem slice?_append (front word rest : List Char) :
    slice? (front ++ word ++ rest) (utf8Length front) (utf8Length front + utf8Length word) = some word := by
  have hSize : utf8Length front + utf8Length word - utf8Length front = utf8Length word := by omega
  rw [slice?, if_pos (Nat.le_add_right _ _), hSize, List.append_assoc, splitAt?_append]
  simp only [Option.bind_eq_bind, Option.bind_some, splitAt?_append]
  rfl

theorem utf8Length_of_ascii (h : ∀ c ∈ cs, c.utf8Size = 1) : utf8Length cs = cs.length := by
  induction cs with
  | nil => rfl
  | cons c cs ih =>
    obtain ⟨hFirst, hOthers⟩ := List.forall_mem_cons.mp h
    rw [utf8Length, hFirst, ih hOthers, List.length_cons, Nat.add_comm]

end Text

namespace Token

open CrossAsm.Text (utf8Length slice?)

-- --------
-- The places of a scan
-- --------

/-- The scan of a source comes to byte `pos` with the characters `rest` still to be read. -/
inductive Reaches (source : String) : Nat → Bool → List Char → Prop
  | start : Reaches source 0 false source.toList
  | blank {pos : Nat} {afterValue : Bool} {c : Char} {cs : List Char} {p : Piece}
      (h : Reaches source pos afterValue (c :: cs))
      (hPiece : piece (utf8Length source.toList) pos afterValue c cs = .ok p) (hBlank : p.lexeme = none) :
      Reaches source (pos + utf8Length p.taken) afterValue p.rest
  | token {pos : Nat} {afterValue : Bool} {c : Char} {cs : List Char} {p : Piece} {l : Lexeme}
      (h : Reaches source pos afterValue (c :: cs))
      (hPiece : piece (utf8Length source.toList) pos afterValue c cs = .ok p)
      (hLexeme : p.lexeme = some l) :
      Reaches source (pos + utf8Length p.taken) l.endsValue p.rest

variable {source : String} {pos : Nat} {afterValue : Bool} {c : Char} {cs rest word : List Char} {p : Piece}

namespace Reaches

/-- A piece goes on where it ends. -/
theorem piece_text {front : List Char} (hText : source.toList = front ++ c :: cs)
    (hPiece : piece (utf8Length source.toList) pos afterValue c cs = .ok p) :
    source.toList = front ++ p.taken ++ p.rest := by
  obtain ⟨ts, hTaken, hRest⟩ := piece_split hPiece
  rw [hText, hTaken, List.append_assoc, List.cons_append, hRest]

/-- **The scan is always between two characters**, with the rest of the source before it. -/
theorem front (h : Reaches source pos afterValue rest) :
    ∃ front, source.toList = front ++ rest ∧ utf8Length front = pos := by
  induction h with
  | start => exact ⟨[], rfl, rfl⟩
  | @blank pos _ c cs p _ hPiece _ ih =>
    obtain ⟨front, hText, hFront⟩ := ih
    refine ⟨front ++ p.taken, piece_text hText hPiece, ?_⟩
    rw [Text.utf8Length_append, hFront]
  | @token pos _ c cs p l _ hPiece _ ih =>
    obtain ⟨front, hText, hFront⟩ := ih
    refine ⟨front ++ p.taken, piece_text hText hPiece, ?_⟩
    rw [Text.utf8Length_append, hFront]

theorem le_stop (h : Reaches source pos afterValue rest) : pos ≤ utf8Length source.toList := by
  obtain ⟨front, hText, hFront⟩ := h.front
  rw [hText, Text.utf8Length_append, hFront]
  exact Nat.le_add_right _ _

/-- Every word that comes next can be cut out. -/
theorem slice?_eq (h : Reaches source pos afterValue (word ++ rest)) :
    slice? source.toList pos (pos + utf8Length word) = some word := by
  obtain ⟨front, hText, rfl⟩ := h.front
  rw [hText, ← List.append_assoc]
  exact Text.slice?_append front word rest

/-- So can a word behind the first character. -/
theorem slice?_behind (h : Reaches source pos afterValue (c :: (word ++ rest))) :
    slice? source.toList (pos + c.utf8Size) (pos + c.utf8Size + utf8Length word) = some word := by
  obtain ⟨front, hText, rfl⟩ := h.front
  have hSlice := Text.slice?_append (front ++ [c]) word rest
  have hSize : utf8Length (front ++ [c]) = utf8Length front + c.utf8Size := Text.utf8Length_append front [c]
  rwa [hSize, List.append_assoc, List.append_assoc, List.singleton_append, ← hText] at hSlice

end Reaches

-- --------
-- Scans end at such places
-- --------

/-- A scan that fails does so at a place it comes to. -/
theorem reaches_of_scanFrom_error {d : Diagnostic} (hReaches : Reaches source pos afterValue cs)
    (h : scanFrom (utf8Length source.toList) pos afterValue cs = .error d) :
    ∃ pos afterValue c cs, Reaches source pos afterValue (c :: cs) ∧
      piece (utf8Length source.toList) pos afterValue c cs = .error d := by
  fun_induction scanFrom (utf8Length source.toList) pos afterValue cs with
  | case1 => cases h
  | case2 pos afterValue c cs d' hPiece =>
    cases h
    exact ⟨pos, afterValue, c, cs, hReaches, hPiece⟩
  | case3 pos afterValue c cs p hPiece size hNone =>
    rename_i ih
    exact ih (hReaches.blank hPiece hNone) h
  | case4 pos afterValue c cs p hPiece size l hLexeme d' hOthers =>
    rename_i ih
    exact ih (hReaches.token hPiece hLexeme) (hOthers.trans (by rw [Except.error.inj h]))
  | case5 => cases h

/-- The tokens of a scan that succeeds stand at places it comes to. -/
theorem reaches_of_scanFrom_ok {tokens : List Token} {t : Token} (hReaches : Reaches source pos afterValue cs)
    (h : scanFrom (utf8Length source.toList) pos afterValue cs = .ok tokens) (ht : t ∈ tokens) :
    ∃ afterValue c cs p, Reaches source t.span.start afterValue (c :: cs) ∧
      piece (utf8Length source.toList) t.span.start afterValue c cs = .ok p ∧
      p.lexeme = some t.lexeme ∧ t.span.stop = t.span.start + utf8Length p.taken := by
  fun_induction scanFrom (utf8Length source.toList) pos afterValue cs generalizing tokens with
  | case1 =>
    cases h
    cases ht
  | case2 => cases h
  | case3 pos afterValue c cs p hPiece size hNone =>
    rename_i ih
    exact ih (hReaches.blank hPiece hNone) h ht
  | case4 => cases h
  | case5 pos afterValue c cs p hPiece size l hLexeme others hOthers =>
    rename_i ih
    cases h
    rcases List.mem_cons.mp ht with rfl | ht
    · exact ⟨afterValue, c, cs, p, hReaches, hPiece, hLexeme, rfl⟩
    · exact ih (hReaches.token hPiece hLexeme) hOthers ht

/-- All cuts that the scan of a source makes are between characters, however it ends. -/
structure CutsCleanly (source : String) : Prop where
  /-- A scan that fails does so at a place it comes to. -/
  fails  : ∀ d, scan source = .error d → ∃ pos afterValue c cs, Reaches source pos afterValue (c :: cs) ∧
    piece (utf8Length source.toList) pos afterValue c cs = .error d
  /-- Tokens stand at places it comes to. -/
  reads  : ∀ tokens, scan source = .ok tokens → ∀ t ∈ tokens, ∃ afterValue c cs p,
    Reaches source t.span.start afterValue (c :: cs) ∧
      piece (utf8Length source.toList) t.span.start afterValue c cs = .ok p ∧
      p.lexeme = some t.lexeme ∧ t.span.stop = t.span.start + utf8Length p.taken
  /-- What is left there has a length. -/
  left   : ∀ pos afterValue rest, Reaches source pos afterValue rest → pos ≤ utf8Length source.toList
  /-- What a piece takes is cut out. -/
  piece  : ∀ pos afterValue c cs p, Reaches source pos afterValue (c :: cs) →
    piece (utf8Length source.toList) pos afterValue c cs = .ok p →
      slice? source.toList pos (pos + utf8Length p.taken) = some p.taken
  /-- A name or a number is cut out, whether it is one or not. -/
  word   : ∀ pos afterValue c cs, Reaches source pos afterValue (c :: cs) →
    slice? source.toList pos (pos + utf8Length (c :: cs.takeWhile isNameChar)) =
      some (c :: cs.takeWhile isNameChar)
  /-- So are the digits behind a `$` or a `%`. -/
  digits : ∀ pos afterValue c cs radix, Reaches source pos afterValue (c :: cs) → c = '$' ∨ c = '%' →
    slice? source.toList (pos + 1) (pos + 1 + utf8Length (cs.takeWhile (Text.isDigitIn radix))) =
      some (cs.takeWhile (Text.isDigitIn radix))

/-- **The scan of a source cuts it between characters.** -/
theorem cutsCleanly (source : String) : CutsCleanly source where
  fails _ h := reaches_of_scanFrom_error .start h
  reads _ h _ ht := reaches_of_scanFrom_ok .start h ht
  left _ _ _ h := h.le_stop
  piece pos afterValue c cs p h hPiece := by
    obtain ⟨ts, hTaken, hRest⟩ := piece_split hPiece
    have hText : c :: cs = p.taken ++ p.rest := by rw [hTaken, List.cons_append, hRest]
    rw [hText] at h
    exact h.slice?_eq
  word pos afterValue c cs h := by
    have hText : c :: cs = (c :: cs.takeWhile isNameChar) ++ cs.dropWhile isNameChar := by
      rw [List.cons_append, List.takeWhile_append_dropWhile]
    rw [hText] at h
    exact h.slice?_eq
  digits pos afterValue c cs radix h hMark := by
    have hSize : c.utf8Size = 1 := by
      rcases hMark with rfl | rfl <;> rfl
    have hText : c :: cs =
        c :: (cs.takeWhile (Text.isDigitIn radix) ++ cs.dropWhile (Text.isDigitIn radix)) := by
      rw [List.takeWhile_append_dropWhile]
    rw [hText] at h
    have hSlice := h.slice?_behind
    rwa [hSize] at hSlice

end Token

end CrossAsm
