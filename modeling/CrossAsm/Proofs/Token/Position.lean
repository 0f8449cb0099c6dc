import CrossAsm.Proofs.Token

/-!
# CrossAsm — where tokens stand

The tokens of a source stand in it one behind the other, with blanks and comments in between. Their spans count
bytes, so each of them starts and ends between two characters.

* `Token.Spread` — tokens that stand in a text in this way.
* `Token.spread_scan` — the tokens of a source do.
* `Spread.before` — what stands before a token, and `Spread.pairwise`, that no two of them overlap.
-/

namespace CrossAsm.Token

open CrossAsm.Text (utf8Length)

/-- The bytes of a source. -/
theorem utf8Length_toList (source : String) : utf8Length source.toList = source.utf8ByteSize := by
  rw [← String.size_toByteArray, ← String.utf8Encode_toList, List.utf8Encode, List.size_toByteArray]
  exact (Text.length_utf8Bytes source.toList).symm

-- --------
-- The characters of a token
-- --------

/-- The characters of a token: there are some, a newline is one character, and a name is its characters, each of
them a single byte and the first one a letter, a digit or an underscore. -/
structure Spells (word : List Char) (l : Lexeme) : Prop where
  ne_nil  : word ≠ []
  newline : l = .newline → word = ['\n']
  name    : ∀ name, l = .identifier name → name.toList = word ∧ ∀ c ∈ word, c.utf8Size = 1
  first   : ∀ name, l = .identifier name → ∀ c ∈ word.head?, isNameChar c = true

theorem utf8Length_pos {word : List Char} (h : word ≠ []) : 0 < utf8Length word := by
  cases word with
  | nil => exact absurd rfl h
  | cons c cs =>
    have hSize := c.utf8Size_pos
    simp only [utf8Length]
    omega

/-- Names are written in ASCII. -/
theorem utf8Size_of_isNameChar {c : Char} (h : isNameChar c = true) : c.utf8Size = 1 := by
  have hCode : ∀ d : Char, d.isAlphanum = true → d.val.toNat ≤ 127 := by
    intro d hd
    have hBelow : ∀ high : UInt32, high ≤ 127 → d.val ≤ high → d.val.toNat ≤ 127 :=
      fun _ hHigh hLe => UInt32.le_iff_toNat_le.mp (UInt32.le_trans hLe hHigh)
    rcases Bool.or_eq_true_iff.mp hd with hLetter | hDigit
    · rcases Bool.or_eq_true_iff.mp hLetter with hUpper | hLower
      · exact hBelow 'Z'.val (by decide) (of_decide_eq_true hUpper).2
      · exact hBelow 'z'.val (by decide) (of_decide_eq_true (Bool.and_eq_true_iff.mp hLower).2)
    · exact hBelow '9'.val (by decide) (of_decide_eq_true (Bool.and_eq_true_iff.mp hDigit).2)
  rw [Char.utf8Size_eq_one_iff, UInt32.le_iff_toNat_le]
  rw [isNameChar, Bool.or_eq_true, beq_iff_eq] at h
  rcases h with h | rfl
  · exact hCode c h
  · decide

/-- The digits of any radix can stand in names. -/
theorem isNameChar_of_isDigitIn {c : Char} {radix : Nat} (h : Text.isDigitIn radix c = true) :
    isNameChar c = true := by
  have hLetter (hAlpha : c.isAlpha = true) : isNameChar c = true := by
    rw [isNameChar, Char.isAlphanum, hAlpha, Bool.true_or, Bool.true_or]
  unfold Text.isDigitIn at h
  split at h
  · next d hd =>
    unfold Text.digitOf? at hd
    split at hd
    · next hDigit => rw [isNameChar, Char.isAlphanum, hDigit, Bool.or_true, Bool.true_or]
    · split at hd
      · next hSmall =>
        have hLower : c.isLower = true := Bool.and_eq_true_iff.mpr ⟨decide_eq_true hSmall.1, decide_eq_true hSmall.2⟩
        exact hLetter (Bool.or_eq_true_iff.mpr (.inr hLower))
      · split at hd
        · next hCapital =>
          have hUpper : c.isUpper = true := decide_eq_true hCapital
          exact hLetter (Bool.or_eq_true_iff.mpr (.inl hUpper))
        · cases hd
  · cases h

theorem spells_namePiece {c : Char} {cs : List Char} (hc : isNameChar c = true) :
    ∃ name, (namePiece c cs).lexeme = some (.identifier name) ∧
      name.toList = (namePiece c cs).taken ∧ ∀ d ∈ (namePiece c cs).taken, d.utf8Size = 1 := by
  have hWord : ∀ d ∈ c :: cs.takeWhile isNameChar, d.utf8Size = 1 := by
    refine List.forall_mem_cons.mpr ⟨utf8Size_of_isNameChar hc, fun d hd => ?_⟩
    exact utf8Size_of_isNameChar (List.all_eq_true.mp List.all_takeWhile d hd)
  unfold namePiece
  dsimp only
  split
  · exact ⟨_, rfl, String.toList_ofList, hWord⟩
  · split
    · next hQuote =>
      refine ⟨_, rfl, String.toList_ofList, fun d hd => ?_⟩
      rcases List.mem_append.mp hd with hd | hd
      · exact hWord d hd
      · rw [List.mem_singleton.mp hd, hQuote.1]
        rfl
    · exact ⟨_, rfl, String.toList_ofList, hWord⟩

/-- A piece with a lexeme spells it. -/
theorem spells_piece {stop pos : Nat} {afterValue : Bool} {c : Char} {cs : List Char} {p : Piece}
    {l : Lexeme} (h : piece stop pos afterValue c cs = .ok p) (hl : p.lexeme = some l) :
    Spells p.taken l := by
  have hFirst : p.taken.head? = some c := by
    obtain ⟨ts, hTaken, -⟩ := piece_split h
    rw [hTaken]
    rfl
  have hTaken : p.taken ≠ [] := by
    intro hNil
    rw [hNil] at hFirst
    cases hFirst
  rcases lexeme_cases h with hNone | ⟨hNewline, rfl⟩ | ⟨hStart, rfl⟩ | ⟨l', hl', hName, hEnds⟩
  · cases hNone.symm.trans hl
  · cases hl
    exact ⟨hTaken, fun _ => by rw [hNewline], nofun, nofun⟩
  · have hChar : isNameChar c = true := by
      rw [Bool.or_eq_true] at hStart
      rw [isNameChar, Char.isAlphanum, Bool.or_eq_true, Bool.or_eq_true]
      exact hStart.imp_left .inl
    obtain ⟨name, hName, hWord, hBytes⟩ := spells_namePiece hChar
    obtain rfl := Option.some.inj (hl.symm.trans hName)
    refine ⟨hTaken, nofun, ?_, ?_⟩
    · rintro name' hEq
      cases hEq
      exact ⟨hWord, hBytes⟩
    · rintro name' - d hd
      rw [hFirst] at hd
      rwa [← Option.some.inj hd]
  · -- Numbers, texts and marks are neither newlines nor names.
    obtain rfl := Option.some.inj (hl.symm.trans hl')
    refine ⟨hTaken, ?_, ?_, ?_⟩
    · rintro rfl
      cases hEnds
    · rintro name rfl
      cases hName
    · rintro name rfl
      cases hName

-- --------
-- The tokens of a text
-- --------

/-- The tokens stand one behind the other in the text that starts at byte `pos`. -/
inductive Spread : Nat → List Char → List Token → Prop
  | done {pos : Nat} {cs : List Char} : Spread pos cs []
  | token {pos : Nat} {gap word rest : List Char} {t : Token} {ts : List Token}
      (hSpan : t.span = ⟨pos + utf8Length gap, utf8Length word⟩) (hWord : Spells word t.lexeme)
      (h : Spread (pos + utf8Length gap + utf8Length word) rest ts) :
      Spread pos (gap ++ word ++ rest) (t :: ts)

namespace Spread

variable {pos : Nat} {cs : List Char} {t : Token} {ts : List Token}

/-- Blanks in front of the text move the tokens. -/
theorem skip {gap : List Char} (h : Spread (pos + utf8Length gap) cs ts) : Spread pos (gap ++ cs) ts := by
  cases h with
  | done => exact .done
  | @token _ gap' word rest t ts hSpan hWord h =>
    have hText : gap ++ (gap' ++ word ++ rest) = gap ++ gap' ++ word ++ rest := by
      simp only [List.append_assoc]
    rw [Nat.add_assoc pos, ← Text.utf8Length_append] at hSpan h
    rw [hText]
    exact .token hSpan hWord h

/-- What stands before a token, what it spells, and what stands behind it. -/
theorem before (h : Spread pos cs ts) (ht : t ∈ ts) :
    ∃ front word rest, cs = front ++ word ++ rest ∧
      t.span = ⟨pos + utf8Length front, utf8Length word⟩ ∧ Spells word t.lexeme := by
  induction h with
  | done => cases ht
  | @token pos gap word rest t' ts hSpan hWord _ ih =>
    rcases List.mem_cons.mp ht with rfl | ht
    · exact ⟨gap, word, rest, rfl, hSpan, hWord⟩
    · obtain ⟨front, word', rest', rfl, hSpan', hWord'⟩ := ih ht
      refine ⟨gap ++ word ++ front, word', rest', by simp only [List.append_assoc], ?_, hWord'⟩
      rw [hSpan', Text.utf8Length_append, Text.utf8Length_append]
      simp only [Nat.add_assoc]

/-- A token has a first byte. -/
theorem start_lt_stop (h : Spread pos cs ts) (ht : t ∈ ts) : t.span.start < t.span.stop := by
  obtain ⟨front, word, rest, -, hSpan, hWord⟩ := h.before ht
  have hPos := utf8Length_pos hWord.ne_nil
  rw [hSpan]
  simp only [Span.stop]
  omega

theorem le_start (h : Spread pos cs ts) (ht : t ∈ ts) : pos ≤ t.span.start := by
  obtain ⟨front, word, rest, -, hSpan, -⟩ := h.before ht
  rw [hSpan]
  exact Nat.le_add_right pos _

theorem stop_le (h : Spread pos cs ts) (ht : t ∈ ts) : t.span.stop ≤ pos + utf8Length cs := by
  obtain ⟨front, word, rest, rfl, hSpan, -⟩ := h.before ht
  rw [hSpan, Text.utf8Length_append, Text.utf8Length_append]
  simp only [Span.stop]
  omega

/-- **No two tokens overlap**, and they come in the order of the text. -/
theorem pairwise (h : Spread pos cs ts) : ts.Pairwise fun a b => a.span.stop ≤ b.span.start := by
  induction h with
  | done => exact .nil
  | token hSpan hWord h ih =>
    refine .cons (fun b hb => ?_) ih
    rw [hSpan]
    exact h.le_start hb

end Spread

/-- The tokens of a text stand in it. -/
theorem spread_scanFrom {stop pos : Nat} {afterValue : Bool} {cs : List Char} {tokens : List Token}
    (h : scanFrom stop pos afterValue cs = .ok tokens) : Spread pos cs tokens := by
  fun_induction scanFrom stop pos afterValue cs generalizing tokens with
  | case1 =>
    cases h
    exact .done
  | case2 => cases h
  | case3 pos afterValue c cs p hPiece size hNone =>
    rename_i ih
    obtain ⟨ts, hTaken, hRest⟩ := piece_split hPiece
    have hText : c :: cs = p.taken ++ p.rest := by rw [hTaken, List.cons_append, hRest]
    rw [hText]
    exact (ih h).skip
  | case4 => cases h
  | case5 pos afterValue c cs p hPiece size l hLexeme others hOthers =>
    rename_i ih
    cases h
    obtain ⟨ts, hTaken, hRest⟩ := piece_split hPiece
    have hText : c :: cs = [] ++ p.taken ++ p.rest := by
      rw [List.nil_append, hTaken, List.cons_append, hRest]
    rw [hText]
    exact .token rfl (spells_piece hPiece hLexeme) (ih hOthers)

/-- **The tokens of a source** stand in it one behind the other. -/
theorem spread_scan {source : String} {tokens : List Token} (h : scan source = .ok tokens) :
    Spread 0 source.toList tokens :=
  spread_scanFrom h

end CrossAsm.Token
