import CrossAsm.Token.Lexer

/-!
# CrossAsm — the tokens of a source

The end of the input is not a token: it stands behind the last one, and nowhere else. `PieceCase` says what a piece of
source can be, so that no proof has to go through the tokenizer again.
-/

namespace CrossAsm.Token

theorem closeCharacter_lexeme {start stop pos : Nat} {x : Char} {taken cs : List Char} {p : Piece}
    (h : closeCharacter start stop pos x taken cs = .ok p) :
    p.lexeme = some (.number (Value.ofNat x.toNat)) := by
  unfold closeCharacter at h
  split at h
  · cases h
  · split at h
    · cases h
      rfl
    · cases h

theorem characterPiece_lexeme {stop pos : Nat} {c : Char} {cs : List Char} {p : Piece}
    (h : characterPiece stop pos c cs = .ok p) : ∃ v, p.lexeme = some (.number v) := by
  unfold characterPiece at h
  split at h
  · cases h
  · split at h
    · split at h
      · cases h
      · split at h
        · cases h
        · exact ⟨_, closeCharacter_lexeme h⟩
    · exact ⟨_, closeCharacter_lexeme h⟩

theorem namePiece_lexeme (c : Char) (cs : List Char) :
    ∃ name, (namePiece c cs).lexeme = some (.identifier name) := by
  unfold namePiece
  dsimp only
  split
  · exact ⟨_, rfl⟩
  · split
    · exact ⟨_, rfl⟩
    · exact ⟨_, rfl⟩

theorem radixPiece_lexeme {radix pos : Nat} {c : Char} {cs : List Char} {p : Piece}
    (h : radixPiece radix pos c cs = .ok p) : ∃ v, p.lexeme = some (.number v) := by
  unfold radixPiece at h
  dsimp only at h
  split at h
  · cases h
    exact ⟨_, rfl⟩
  · cases h

theorem numberPiece_lexeme {pos : Nat} {c : Char} {cs : List Char} {p : Piece}
    (h : numberPiece pos c cs = .ok p) : ∃ v, p.lexeme = some (.number v) := by
  unfold numberPiece at h
  dsimp only at h
  split at h
  · cases h
    exact ⟨_, rfl⟩
  · cases h

theorem stringPiece_lexeme {stop pos : Nat} {c : Char} {cs : List Char} {p : Piece}
    (h : stringPiece stop pos c cs = .ok p) : ∃ s, p.lexeme = some (.text s) := by
  unfold stringPiece at h
  split at h
  · cases h
  · cases h
    exact ⟨_, rfl⟩

theorem markPiece_lexeme {pos : Nat} {c : Char} {cs : List Char} {p : Piece}
    (h : markPiece pos c cs = .ok p) : ∃ m, p.lexeme = some (.mark m) := by
  unfold markPiece at h
  split at h
  · cases h
    exact ⟨_, rfl⟩
  · cases h
    exact ⟨_, rfl⟩
  · split at h
    · cases h
      exact ⟨_, rfl⟩
    · cases h

/-- What a piece is, by the character it starts with. -/
inductive PieceCase (stop pos : Nat) (c : Char) (cs : List Char) : Except Diagnostic Piece → Prop
  | newline (h : c = '\n') : PieceCase stop pos c cs (.ok ⟨some .newline, [c], cs⟩)
  | blank : PieceCase stop pos c cs (.ok ⟨none, [c], cs⟩)
  | comment : PieceCase stop pos c cs (.ok ⟨none, c :: cs.takeWhile (· ≠ '\n'), cs.dropWhile (· ≠ '\n')⟩)
  | string : PieceCase stop pos c cs (stringPiece stop pos c cs)
  | character : PieceCase stop pos c cs (characterPiece stop pos c cs)
  | name (h : (c.isAlpha || c == '_') = true) : PieceCase stop pos c cs (.ok (namePiece c cs))
  | number (h : c.isDigit = true) : PieceCase stop pos c cs (numberPiece pos c cs)
  | radix (radix : Nat) (h : c = '$' ∨ c = '%') : PieceCase stop pos c cs (radixPiece radix pos c cs)
  | mark : PieceCase stop pos c cs (markPiece pos c cs)

theorem pieceCase (stop pos : Nat) (afterValue : Bool) (c : Char) (cs : List Char) :
    PieceCase stop pos c cs (piece stop pos afterValue c cs) := by
  have hIf {condition : Prop} [Decidable condition] {r r' : Except Diagnostic Piece}
      (h : condition → PieceCase stop pos c cs r) (h' : PieceCase stop pos c cs r') :
      PieceCase stop pos c cs (if condition then r else r') := by
    by_cases hTrue : condition
    · rw [if_pos hTrue]
      exact h hTrue
    · rwa [if_neg hTrue]
  unfold piece
  refine hIf .newline (hIf (fun _ => .blank) (hIf (fun _ => .comment) (hIf (fun _ => .string)
    (hIf (fun _ => .character) (hIf .name (hIf .number (hIf (fun h => ?_) (hIf (fun h => ?_) .mark))))))))
  · exact .radix 16 (.inl (beq_iff_eq.mp (Bool.and_eq_true_iff.mp h).1))
  · exact .radix 2 (.inr (beq_iff_eq.mp (Bool.and_eq_true_iff.mp (Bool.and_eq_true_iff.mp h).1).1))

/-- The lexeme of a piece, if it has one: a newline, a name, or one that neither is a name nor ends a statement. -/
theorem lexeme_cases {stop pos : Nat} {afterValue : Bool} {c : Char} {cs : List Char} {p : Piece}
    (h : piece stop pos afterValue c cs = .ok p) :
    p.lexeme = none ∨ (c = '\n' ∧ p = ⟨some .newline, [c], cs⟩) ∨
      ((c.isAlpha || c == '_') = true ∧ p = namePiece c cs) ∨
      ∃ l, p.lexeme = some l ∧ l.name? = none ∧ l.endsStatement = false := by
  have hCase := pieceCase stop pos afterValue c cs
  generalize piece stop pos afterValue c cs = r at h hCase
  cases hCase with
  | newline hc => exact .inr (.inl ⟨hc, (Except.ok.inj h).symm⟩)
  | blank | comment =>
    cases h
    exact .inl rfl
  | name hc => exact .inr (.inr (.inl ⟨hc, (Except.ok.inj h).symm⟩))
  | string =>
    obtain ⟨s, hs⟩ := stringPiece_lexeme h
    exact .inr (.inr (.inr ⟨_, hs, rfl, rfl⟩))
  | character =>
    obtain ⟨v, hv⟩ := characterPiece_lexeme h
    exact .inr (.inr (.inr ⟨_, hv, rfl, rfl⟩))
  | number =>
    obtain ⟨v, hv⟩ := numberPiece_lexeme h
    exact .inr (.inr (.inr ⟨_, hv, rfl, rfl⟩))
  | radix =>
    obtain ⟨v, hv⟩ := radixPiece_lexeme h
    exact .inr (.inr (.inr ⟨_, hv, rfl, rfl⟩))
  | mark =>
    obtain ⟨m, hm⟩ := markPiece_lexeme h
    exact .inr (.inr (.inr ⟨_, hm, rfl, rfl⟩))

/-- No piece of source is the end of the input. -/
theorem piece_lexeme_ne {stop pos : Nat} {afterValue : Bool} {c : Char} {cs : List Char} {p : Piece}
    (h : piece stop pos afterValue c cs = .ok p) : p.lexeme ≠ some .endOfInput := by
  intro hEnd
  rcases lexeme_cases h with hNone | ⟨-, rfl⟩ | ⟨-, rfl⟩ | ⟨l, hl, -, hEnds⟩
  · cases hNone.symm.trans hEnd
  · cases hEnd
  · obtain ⟨name, hName⟩ := namePiece_lexeme c cs
    cases hName.symm.trans hEnd
  · obtain rfl := Option.some.inj (hl.symm.trans hEnd)
    cases hEnds

theorem scanFrom_lexeme_ne {stop pos : Nat} {afterValue : Bool} {cs : List Char}
    {tokens : List Token} (h : scanFrom stop pos afterValue cs = .ok tokens) :
    ∀ t ∈ tokens, t.lexeme ≠ .endOfInput := by
  fun_induction scanFrom stop pos afterValue cs generalizing tokens with
  | case1 =>
    cases h
    simp
  | case2 => cases h
  | case3 =>
    rename_i ih
    exact ih h
  | case4 => cases h
  | case5 pos afterValue c cs p hPiece size l hLexeme others hOthers =>
    rename_i ih
    cases h
    intro t ht
    rcases List.mem_cons.mp ht with rfl | ht
    · intro hEnd
      exact piece_lexeme_ne hPiece (hLexeme.trans (congrArg some hEnd))
    · exact ih hOthers t ht

/-- **The end of the input is no token of a source.** -/
theorem scan_lexeme_ne {source : String} {tokens : List Token} (h : scan source = .ok tokens) :
    ∀ t ∈ tokens, t.lexeme ≠ .endOfInput :=
  scanFrom_lexeme_ne h

end CrossAsm.Token
