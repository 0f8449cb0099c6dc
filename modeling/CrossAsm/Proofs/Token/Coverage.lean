import CrossAsm.Proofs.Location

/-!
# CrossAsm — nothing of a source is lost

The pieces of a source are the source: every byte of it is taken by one of them. A piece with a lexeme is a token,
and its span is what it took. What no token takes is a blank, or part of a comment, which goes from its semicolon to
the end of the line.

* `Lexeme.spelling?` — how a lexeme is written, where there is only one way.
* `Token.AccountsFor` — what tokens say about a text, and what is left of it between them.
* `Token.exists_piece_of_scanFrom` — every byte is taken by a piece that the scan comes to.
* `Token.tokens_account_for_source` — so the tokens of a source account for it.
-/

namespace CrossAsm

open CrossAsm.Text (utf8Length slice? RestAt)

variable {source : String}

-- --------
-- Written lexemes
-- --------

/-- The text of a lexeme that can be written in one way only: a name is its own text. -/
def Lexeme.spelling? : Lexeme → Option String
  | .identifier name => some name
  | .mark m => some m.text
  | .newline => some "\n"
  | .number _ | .text _ | .endOfInput => none

theorem Mark.text_of_ofChar? {c : Char} {m : Mark} (h : Mark.ofChar? c = some m) : m.text.toList = [c] := by
  unfold Mark.ofChar? at h
  split at h <;> cases h <;> rfl

namespace Token

variable {stop pos : Nat} {afterValue : Bool} {c : Char} {cs : List Char} {p : Piece}

theorem spelling_markPiece {m : Mark} (h : markPiece pos c cs = .ok p) (hm : p.lexeme = some (.mark m)) :
    m.text.toList = p.taken := by
  unfold markPiece at h
  split at h
  · cases h
    cases hm
    rfl
  · cases h
    cases hm
    rfl
  · split at h
    · next hMark =>
      cases h
      cases hm
      exact Mark.text_of_ofChar? hMark
    · cases h

/-- A piece with such a lexeme takes its text. -/
theorem spelling_piece {l : Lexeme} {text : String} (h : piece stop pos afterValue c cs = .ok p)
    (hl : p.lexeme = some l) (hText : l.spelling? = some text) : text.toList = p.taken := by
  have hSpells := spells_piece h hl
  cases l with
  | identifier name =>
    obtain rfl := Option.some.inj hText
    exact (hSpells.name name rfl).1
  | newline =>
    obtain rfl := Option.some.inj hText
    exact (hSpells.newline rfl).symm
  | mark m =>
    obtain rfl := Option.some.inj hText
    have hCase := pieceCase stop pos afterValue c cs
    generalize piece stop pos afterValue c cs = r at h hCase
    cases hCase with
    | newline | blank | comment =>
      cases h
      cases hl
    | name =>
      obtain ⟨name, hName⟩ := namePiece_lexeme c cs
      obtain rfl := Except.ok.inj h
      cases hName.symm.trans hl
    | string =>
      obtain ⟨s, hs⟩ := stringPiece_lexeme h
      cases hs.symm.trans hl
    | character =>
      obtain ⟨v, hv⟩ := characterPiece_lexeme h
      cases hv.symm.trans hl
    | number =>
      obtain ⟨v, hv⟩ := numberPiece_lexeme h
      cases hv.symm.trans hl
    | radix =>
      obtain ⟨v, hv⟩ := radixPiece_lexeme h
      cases hv.symm.trans hl
    | mark => exact spelling_markPiece h hl
  | number | text | endOfInput => cases hText

-- --------
-- Blanks and comments
-- --------

/-- A piece without a lexeme: a blank, or a comment up to the end of its line. -/
inductive Gap (c : Char) (cs : List Char) : Piece → Prop
  | blank (hBlank : Text.isBlank c = true) (hLine : c ≠ '\n') : Gap c cs ⟨none, [c], cs⟩
  | comment (h : c = ';') : Gap c cs ⟨none, c :: cs.takeWhile (· ≠ '\n'), cs.dropWhile (· ≠ '\n')⟩

theorem gap_of_piece (h : piece stop pos afterValue c cs = .ok p) (hNone : p.lexeme = none) : Gap c cs p := by
  have hLexeme {l : Lexeme} (hl : p.lexeme = some l) : Gap c cs p := by
    cases hNone.symm.trans hl
  unfold piece at h
  split at h
  · cases h
    cases hNone
  next hLine =>
  split at h
  · next hBlank =>
    cases h
    exact .blank hBlank hLine
  split at h
  · next hComment =>
    cases h
    exact .comment hComment
  -- All other pieces have a lexeme.
  split at h
  · exact hLexeme (stringPiece_lexeme h).choose_spec
  split at h
  · exact hLexeme (characterPiece_lexeme h).choose_spec
  split at h
  · obtain rfl := Except.ok.inj h
    exact hLexeme (namePiece_lexeme c cs).choose_spec
  split at h
  · exact hLexeme (numberPiece_lexeme h).choose_spec
  split at h
  · exact hLexeme (radixPiece_lexeme h).choose_spec
  split at h
  · exact hLexeme (radixPiece_lexeme h).choose_spec
  · exact hLexeme (markPiece_lexeme h).choose_spec

end Token

namespace Span

/-- Whether the byte is part of the span. -/
def Covers (s : Span) (pos : Nat) : Prop := s.start ≤ pos ∧ pos < s.stop

/-- The spans have no byte in common, as one of them ends before the other starts. -/
def Apart (s t : Span) : Prop := s.stop ≤ t.start ∨ t.stop ≤ s.start

/-- At the span stands a comment: a semicolon with the rest of its line, up to the newline or the end of the text. -/
def IsComment (source : String) (s : Span) : Prop :=
  ∃ body rest, RestAt source s.start (';' :: body ++ rest) ∧ s.length = utf8Length (';' :: body) ∧
    '\n' ∉ body ∧ (rest = [] ∨ rest.head? = some '\n')

end Span

/-- No character starts inside another one. -/
theorem Text.RestAt.eq_of_covers {pos pos' : Nat} {c c' : Char} {cs cs' : List Char}
    (h : RestAt source pos (c :: cs)) (h' : RestAt source pos' (c' :: cs')) (hLe : pos ≤ pos')
    (hLt : pos' < pos + c.utf8Size) : c' = c := by
  obtain ⟨front, hText, rfl⟩ := h
  obtain ⟨front', hText', rfl⟩ := h'
  rcases List.append_eq_append_iff.mp (hText.symm.trans hText') with ⟨between, hFront, hRest⟩ | ⟨between, hFront, hRest⟩
  · cases between with
    | nil => exact (List.cons.inj hRest).1.symm
    | cons d ds =>
      -- The other character would start behind this one.
      obtain ⟨rfl, -⟩ := List.cons.inj hRest
      rw [hFront, utf8Length_append, utf8Length] at hLt
      omega
  · cases between with
    | nil => exact (List.cons.inj hRest).1
    | cons d ds =>
      have hSize := d.utf8Size_pos
      rw [hFront, utf8Length_append, utf8Length] at hLe
      omega

namespace Token

variable {pos : Nat} {afterValue : Bool} {c : Char} {cs : List Char} {p : Piece} {tokens : List Token}

theorem isComment_of_reaches (hReaches : Reaches source pos afterValue (';' :: cs)) :
    Span.IsComment source ⟨pos, utf8Length (';' :: cs.takeWhile (· ≠ '\n'))⟩ := by
  refine ⟨cs.takeWhile (· ≠ '\n'), cs.dropWhile (· ≠ '\n'), ?_, rfl, ?_, ?_⟩
  · rw [List.cons_append, List.takeWhile_append_dropWhile]
    exact hReaches.front
  · intro hMem
    exact absurd rfl (of_decide_eq_true (List.all_eq_true.mp List.all_takeWhile '\n' hMem))
  · cases hRest : cs.dropWhile (· ≠ '\n') with
    | nil => exact .inl rfl
    | cons d ds =>
      have hHead : decide (d ≠ '\n') = false := by
        have hFirst := List.head?_dropWhile_not (· ≠ '\n') cs
        rwa [hRest] at hFirst
      obtain rfl := Decidable.not_not.mp (of_decide_eq_false hHead)
      exact .inr rfl

-- --------
-- Every byte is taken
-- --------

/-- Byte `byte` is taken by a piece that the scan comes to. The piece is one of the tokens, or lies between them. -/
structure TakenBy (source : String) (tokens : List Token) (byte pos : Nat) (afterValue : Bool) (c : Char)
    (cs : List Char) (p : Piece) : Prop where
  reaches : Reaches source pos afterValue (c :: cs)
  piece   : piece (utf8Length source.toList) pos afterValue c cs = .ok p
  covers  : Span.Covers ⟨pos, utf8Length p.taken⟩ byte
  token   : ∀ l, p.lexeme = some l → ⟨l, ⟨pos, utf8Length p.taken⟩⟩ ∈ tokens
  between : p.lexeme = none → ∀ t ∈ tokens, t.span.Apart ⟨pos, utf8Length p.taken⟩

/-- A piece in front, which ends where the others start. -/
theorem TakenBy.cons {byte : Nat} {t : Token} (h : TakenBy source tokens byte pos afterValue c cs p)
    (ht : t.span.stop ≤ pos) : TakenBy source (t :: tokens) byte pos afterValue c cs p where
  reaches := h.reaches
  piece := h.piece
  covers := h.covers
  token l hl := List.mem_cons_of_mem t (h.token l hl)
  between hNone := List.forall_mem_cons.mpr ⟨.inl ht, h.between hNone⟩

/-- What a piece takes and what it leaves is what was there. -/
theorem utf8Length_piece {stop : Nat} (h : piece stop pos afterValue c cs = .ok p) :
    utf8Length (c :: cs) = utf8Length p.taken + utf8Length p.rest := by
  obtain ⟨ts, hTaken, hRest⟩ := piece_split h
  rw [← Text.utf8Length_append, hTaken, List.cons_append, hRest]

/-- **Every byte is taken** by a piece behind the place from where the scan goes on. -/
theorem exists_piece_of_scanFrom {byte : Nat} (hReaches : Reaches source pos afterValue cs)
    (h : scanFrom (utf8Length source.toList) pos afterValue cs = .ok tokens) (hLe : pos ≤ byte)
    (hLt : byte < pos + utf8Length cs) :
    ∃ pos' afterValue' c' cs' p, pos ≤ pos' ∧ TakenBy source tokens byte pos' afterValue' c' cs' p := by
  fun_induction scanFrom (utf8Length source.toList) pos afterValue cs generalizing tokens with
  | case1 =>
    rw [utf8Length] at hLt
    omega
  | case2 => cases h
  | case3 pos afterValue c cs p hPiece size hNone =>
    rename_i ih
    rw [utf8Length_piece hPiece] at hLt
    by_cases hHere : byte < pos + utf8Length p.taken
    · refine ⟨pos, afterValue, c, cs, p, Nat.le_refl _, hReaches, hPiece, ⟨hLe, hHere⟩, ?_, ?_⟩
      · intro l hl
        cases hNone.symm.trans hl
      · intro _ t ht
        exact .inr ((spread_scanFrom h).le_start ht)
    · obtain ⟨pos', afterValue', c', cs', p', hPos, hTaken⟩ :=
        ih (hReaches.blank hPiece hNone) h (Nat.not_lt.mp hHere) (by omega)
      exact ⟨pos', afterValue', c', cs', p', by omega, hTaken⟩
  | case4 => cases h
  | case5 pos afterValue c cs p hPiece size l hLexeme others hOthers =>
    rename_i ih
    cases h
    rw [utf8Length_piece hPiece] at hLt
    by_cases hHere : byte < pos + utf8Length p.taken
    · refine ⟨pos, afterValue, c, cs, p, Nat.le_refl _, hReaches, hPiece, ⟨hLe, hHere⟩, ?_, ?_⟩
      · intro l' hl
        obtain rfl := Option.some.inj (hLexeme.symm.trans hl)
        exact List.mem_cons_self
      · intro hNone
        cases hNone.symm.trans hLexeme
    · obtain ⟨pos', afterValue', c', cs', p', hPos, hTaken⟩ :=
        ih (hReaches.token hPiece hLexeme) hOthers (Nat.not_lt.mp hHere) (by omega)
      exact ⟨pos', afterValue', c', cs', p', by omega, hTaken.cons hPos⟩

-- --------
-- The whole source
-- --------

/-- The tokens stand in the text one behind the other, say what is written there, and leave nothing out but blanks
and comments. -/
structure AccountsFor (source : String) (tokens : List Token) : Prop where
  /-- They come in the order of the text, and no two of them overlap. -/
  ordered  : tokens.Pairwise fun a b => a.span.stop ≤ b.span.start
  nonempty : ∀ t ∈ tokens, 0 < t.span.length
  /-- They start and end between characters of the text. -/
  inside   : ∀ t ∈ tokens, t.span.Within source
  /-- A character `c` at a byte outside of all tokens is a blank, or part of a comment that no token overlaps. -/
  skipped  : ∀ pos c rest, RestAt source pos (c :: rest) → (∀ t ∈ tokens, ¬ t.span.Covers pos) →
    Text.isBlank c = true ∧ c ≠ '\n' ∨
      ∃ s, Span.IsComment source s ∧ s.Covers pos ∧ ∀ t ∈ tokens, t.span.Apart s
  /-- Names, marks and newlines are the text of their spans. -/
  spelled  : ∀ t ∈ tokens, ∀ text, t.lexeme.spelling? = some text →
    slice? source.toList t.span.start t.span.stop = some text.toList

theorem skipped_of_scan (h : scan source = .ok tokens) {rest : List Char} (hRest : RestAt source pos (c :: rest))
    (hOutside : ∀ t ∈ tokens, ¬ t.span.Covers pos) :
    Text.isBlank c = true ∧ c ≠ '\n' ∨
      ∃ s, Span.IsComment source s ∧ s.Covers pos ∧ ∀ t ∈ tokens, t.span.Apart s := by
  have hLt : pos < 0 + utf8Length source.toList := by
    have hLeft := hRest.length_eq
    have hSize := c.utf8Size_pos
    rw [utf8Length] at hLeft
    omega
  obtain ⟨pos', afterValue', c', cs', p, -, hTaken⟩ :=
    exists_piece_of_scanFrom .start h (Nat.zero_le pos) hLt
  cases hLexeme : p.lexeme with
  | some l => exact absurd hTaken.covers (hOutside _ (hTaken.token l hLexeme))
  | none =>
    have hCovers := hTaken.covers
    have hApart := hTaken.between hLexeme
    have hReaches := hTaken.reaches
    cases gap_of_piece hTaken.piece hLexeme with
    | blank hBlank hLine =>
      obtain rfl := RestAt.eq_of_covers hReaches.front hRest hCovers.1 hCovers.2
      exact .inl ⟨hBlank, hLine⟩
    | comment hComment =>
      subst hComment
      exact .inr ⟨_, isComment_of_reaches hReaches, hCovers, hApart⟩

theorem spelled_of_scan {t : Token} {text : String} (h : scan source = .ok tokens) (ht : t ∈ tokens)
    (hText : t.lexeme.spelling? = some text) :
    slice? source.toList t.span.start t.span.stop = some text.toList := by
  obtain ⟨afterValue, c, cs, p, hReaches, hPiece, hLexeme, hStop⟩ := (cutsCleanly source).reads tokens h t ht
  rw [hStop, spelling_piece hPiece hLexeme hText]
  exact (cutsCleanly source).piece t.span.start afterValue c cs p hReaches hPiece

/-- **The tokens of a source account for it.** They stand in it in order and without overlap, between characters.
What is between them is white space other than newlines, or comments. Names, marks and newlines have the text that
their spans have in the source. -/
theorem tokens_account_for_source (h : scan source = .ok tokens) : AccountsFor source tokens where
  ordered := (spread_scan h).pairwise
  nonempty t ht := by
    have hBytes := (spread_scan h).start_lt_stop ht
    rw [Span.stop] at hBytes
    omega
  inside _ ht := within_of_scan h ht
  skipped _ _ _ hRest hOutside := skipped_of_scan h hRest hOutside
  spelled _ ht _ hText := spelled_of_scan h ht hText

set_option maxRecDepth 10000 in
/-- A name with an apostrophe, a comment and a string with a semicolon in it. The accents take two bytes. -/
theorem tokens_account_for_source_accent :
    let tokens : List Token := [⟨.identifier "ex", ⟨0, 2⟩⟩, ⟨.identifier "af'", ⟨3, 3⟩⟩, ⟨.newline, ⟨11, 1⟩⟩,
      ⟨.mark .doubleLess, ⟨12, 2⟩⟩, ⟨.text "\u00e9;", ⟨15, 5⟩⟩]
    scan "ex af' ;\u00e9;\n<< \"\u00e9;\"" = .ok tokens ∧ AccountsFor "ex af' ;\u00e9;\n<< \"\u00e9;\"" tokens := by
  intro tokens
  have hScan : scan "ex af' ;\u00e9;\n<< \"\u00e9;\"" = .ok tokens := by decide +kernel
  exact ⟨hScan, tokens_account_for_source hScan⟩

end Token

end CrossAsm
