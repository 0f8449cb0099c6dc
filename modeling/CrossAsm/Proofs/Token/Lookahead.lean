import CrossAsm.Proofs.Token.Slice

/-!
# CrossAsm — what a piece of source depends on

A piece of source is what its characters say. Where it stands counts only for the places in its errors, and what
stands behind it counts only by its first character, since that might have belonged to the piece.

* `Token.Replaces` — a text that goes on with no piece with which another text would not go on.
* `Token.piece_replace` — a piece stays what it is if the text behind it is replaced by such a one.
* `Token.piece_like` — a piece stays what it is if it is moved.
* `Token.Reaches.replace` — so the tokens before a place stay what they are if the source is changed behind it.
-/

namespace CrossAsm.Token

open CrossAsm.Text (utf8Length isDigitIn)

-- --------
-- What could go on with a piece
-- --------

/-- No token goes on with `d` that would not go on with `c`. -/
structure NoLongerToken (c d : Char) : Prop where
  name    : isNameChar d = true → isNameChar c = true
  digit   : ∀ radix, isDigitIn radix d = true → isDigitIn radix c = true
  quote   : d = apostrophe → c = apostrophe
  less    : d = '<' → c = '<'
  greater : d = '>' → c = '>'

/-- No piece goes on with `d` that would not go on with `c`. -/
structure NoLonger (c d : Char) : Prop extends NoLongerToken c d where
  comment : d ≠ '\n' → c ≠ '\n'

/-- No token goes on with `rest'` that would not go on with `rest`. -/
def Follows (rest rest' : List Char) : Prop := ∀ d ∈ rest'.head?, ∃ c ∈ rest.head?, NoLongerToken c d

/-- No piece goes on with `rest'` that would not go on with `rest`. -/
def Replaces (rest rest' : List Char) : Prop := ∀ d ∈ rest'.head?, ∃ c ∈ rest.head?, NoLonger c d

theorem NoLonger.refl (c : Char) : NoLonger c c := ⟨⟨id, fun _ => id, id, id, id⟩, id⟩

theorem Replaces.follows {rest rest' : List Char} (h : Replaces rest rest') : Follows rest rest' := by
  intro d hd
  obtain ⟨c, hc, hNoLonger⟩ := h d hd
  exact ⟨c, hc, hNoLonger.toNoLongerToken⟩

theorem Replaces.of_head {c : Char} {cs ds : List Char} : Replaces (c :: cs) (c :: ds) := by
  intro d hd
  obtain rfl := Option.some.inj hd
  exact ⟨c, rfl, .refl c⟩

/-- A run of characters ends where a character comes that is none of them. -/
theorem takeWhile_of_ends {q : Char → Bool} {word rest : List Char} (hWord : ∀ c ∈ word, q c = true)
    (hEnds : ∀ c ∈ rest.head?, q c = false) :
    (word ++ rest).takeWhile q = word ∧ (word ++ rest).dropWhile q = rest := by
  rw [List.takeWhile_append_of_pos hWord, List.dropWhile_append_of_pos hWord]
  cases rest with
  | nil => exact ⟨List.append_nil word, rfl⟩
  | cons c cs =>
    have hc : ¬q c = true := Bool.eq_false_iff.mp (hEnds c rfl)
    rw [List.takeWhile_cons_of_neg hc, List.dropWhile_cons_of_neg hc, List.append_nil]
    exact ⟨rfl, rfl⟩

section Heads

variable {R : Char → Char → Prop} {q : Char → Bool} (hq : ∀ c d, R c d → q d = true → q c = true)
  {cs rest rest' : List Char}

include hq

/-- It does not go on with what another text is replaced by, either. -/
theorem ends_of_head (h : ∀ d ∈ rest'.head?, ∃ c ∈ rest.head?, R c d) (hEnds : ∀ c ∈ rest.head?, q c = false) :
    ∀ d ∈ rest'.head?, q d = false := by
  intro d hd
  obtain ⟨c, hc, hRelated⟩ := h d hd
  refine Bool.eq_false_iff.mpr fun hTrue => ?_
  exact Bool.false_ne_true ((hEnds c hc).symm.trans (hq c d hRelated hTrue))

/-- So a run ends where it did if the text behind it is replaced. -/
theorem takeWhile_of_head (h : ∀ d ∈ rest'.head?, ∃ c ∈ (cs.dropWhile q).head?, R c d) :
    (cs.takeWhile q ++ rest').takeWhile q = cs.takeWhile q ∧ (cs.takeWhile q ++ rest').dropWhile q = rest' := by
  refine takeWhile_of_ends (List.all_eq_true.mp List.all_takeWhile) (ends_of_head hq h fun c hc => ?_)
  have hEnd := List.head?_dropWhile_not q cs
  rwa [Option.mem_def.mp hc] at hEnd

end Heads

theorem Follows.quote {rest rest' : List Char} (h : Follows rest rest') (hQuote : rest'.head? = some apostrophe) :
    rest.head? = some apostrophe := by
  obtain ⟨c, hc, hNoLonger⟩ := h apostrophe hQuote
  rwa [hNoLonger.quote rfl] at hc

theorem Follows.digitNext {radix : Nat} {rest rest' : List Char} (h : Follows rest rest')
    (hNext : digitNext radix rest = false) : digitNext radix rest' = false := by
  cases rest' with
  | nil => rfl
  | cons d ds =>
    obtain ⟨c, hc, hNoLonger⟩ := h d rfl
    cases rest with
    | nil => cases hc
    | cons c' cs =>
      obtain rfl := Option.some.inj hc
      refine Bool.eq_false_iff.mpr fun hDigit => ?_
      rw [Token.digitNext, hNoLonger.digit radix hDigit] at hNext
      cases hNext

-- --------
-- Names
-- --------

section Names

variable {c : Char} {word rest : List Char}

/-- The characters of names are no blanks. -/
theorem isBlank_of_isNameChar (h : isNameChar c = true) : Text.isBlank c = false := by
  have hCode : 48 ≤ c.toNat ∧ c.toNat ≤ 122 := by
    have hRange (low high : Char) (hLow : low.val ≤ c.val) (hHigh : c.val ≤ high.val) :
        low.toNat ≤ c.toNat ∧ c.toNat ≤ high.toNat :=
      ⟨UInt32.le_iff_toNat_le.mp hLow, UInt32.le_iff_toNat_le.mp hHigh⟩
    rw [isNameChar, Bool.or_eq_true, beq_iff_eq] at h
    rcases h with h | rfl
    · rcases Bool.or_eq_true_iff.mp h with hLetter | hDigit
      · rcases Bool.or_eq_true_iff.mp hLetter with hUpper | hLower
        · obtain ⟨hLow, hHigh⟩ := of_decide_eq_true hUpper
          obtain ⟨hLow, hHigh⟩ := hRange 'A' 'Z' hLow hHigh
          exact ⟨Nat.le_trans (by decide) hLow, Nat.le_trans hHigh (by decide)⟩
        · obtain ⟨hLow, hHigh⟩ := Bool.and_eq_true_iff.mp hLower
          obtain ⟨hLow, hHigh⟩ := hRange 'a' 'z' (of_decide_eq_true hLow) (of_decide_eq_true hHigh)
          exact ⟨Nat.le_trans (by decide) hLow, hHigh⟩
      · obtain ⟨hLow, hHigh⟩ := Bool.and_eq_true_iff.mp hDigit
        obtain ⟨hLow, hHigh⟩ := hRange '0' '9' (of_decide_eq_true hLow) (of_decide_eq_true hHigh)
        exact ⟨hLow, Nat.le_trans hHigh (by decide)⟩
    · decide
  have hBlanks : ∀ range ∈ Text.blankRanges, range.2 < 48 ∨ 122 < range.1 := by decide
  refine Bool.eq_false_iff.mpr fun hBlank => ?_
  obtain ⟨range, hRange, hIn⟩ := List.any_eq_true.mp hBlank
  obtain ⟨hLow, hHigh⟩ := Bool.and_eq_true_iff.mp hIn
  have hLow := of_decide_eq_true hLow
  have hHigh := of_decide_eq_true hHigh
  have hApart := hBlanks range hRange
  omega

/-- A letter or an underscore starts a name. -/
theorem piece_of_nameStart {stop pos : Nat} {afterValue : Bool} {cs : List Char}
    (hc : (c.isAlpha || c == '_') = true) : piece stop pos afterValue c cs = .ok (namePiece c cs) := by
  have hOther {d : Char} (hd : (d.isAlpha || d == '_') = false) : c ≠ d := by
    rintro rfl
    rw [hc] at hd
    cases hd
  have hName : isNameChar c = true := by
    rw [isNameChar, Char.isAlphanum, Bool.or_right_comm, hc, Bool.true_or]
  unfold piece
  rw [if_neg (hOther (by decide)), if_neg (Bool.eq_false_iff.mp (isBlank_of_isNameChar hName)),
    if_neg (hOther (by decide)), if_neg (hOther (by decide)), if_neg (hOther (by decide)), if_pos hc]

/-- Only letters and underscores do. -/
theorem namePiece_of_piece {stop pos : Nat} {afterValue : Bool} {cs : List Char} {p : Piece} {name : String}
    (h : piece stop pos afterValue c cs = .ok p) (hLexeme : p.lexeme = some (.identifier name)) :
    (c.isAlpha || c == '_') = true ∧ p = namePiece c cs := by
  rcases lexeme_cases h with hNone | ⟨-, rfl⟩ | hNamed | ⟨l, hl, hName, -⟩
  · cases hNone.symm.trans hLexeme
  · cases hLexeme
  · exact hNamed
  · obtain rfl := Option.some.inj (hl.symm.trans hLexeme)
    cases hName

theorem namePiece_of_word (hWord : ∀ d ∈ word, isNameChar d = true) (hEnds : ∀ d ∈ rest.head?, isNameChar d = false)
    (hPlain : rest.head? = some apostrophe → Text.sameWord (String.ofList (c :: word)) "af" = false) :
    namePiece c (word ++ rest) = ⟨some (.identifier (String.ofList (c :: word))), c :: word, rest⟩ := by
  obtain ⟨hTake, hDrop⟩ := takeWhile_of_ends hWord hEnds
  unfold namePiece
  dsimp only
  rw [hTake, hDrop]
  cases rest with
  | nil => rfl
  | cons d ds =>
    dsimp only
    refine if_neg fun hQuote => ?_
    rw [hPlain (congrArg some hQuote.1)] at hQuote
    cases hQuote.2

/-- The apostrophe of `AF'` belongs to the name. -/
theorem namePiece_of_quote (hWord : ∀ d ∈ word, isNameChar d = true)
    (hPair : Text.sameWord (String.ofList (c :: word)) "af" = true) :
    namePiece c (word ++ apostrophe :: rest) =
      ⟨some (.identifier (String.ofList (c :: word ++ [apostrophe]))), c :: word ++ [apostrophe], rest⟩ := by
  have hEnds : ∀ d ∈ (apostrophe :: rest).head?, isNameChar d = false := by
    intro d hd
    rw [← Option.some.inj hd]
    decide
  obtain ⟨hTake, hDrop⟩ := takeWhile_of_ends hWord hEnds
  unfold namePiece
  dsimp only
  rw [hTake, hDrop]
  exact if_pos ⟨rfl, hPair⟩

/-- There are no other names. -/
theorem namePiece_cases (c : Char) (cs : List Char) :
    (∃ word rest, (∀ d ∈ word, isNameChar d = true) ∧ (∀ d ∈ rest.head?, isNameChar d = false) ∧
      (rest.head? = some apostrophe → Text.sameWord (String.ofList (c :: word)) "af" = false) ∧
      cs = word ++ rest) ∨
    ∃ word rest, (∀ d ∈ word, isNameChar d = true) ∧ Text.sameWord (String.ofList (c :: word)) "af" = true ∧
      cs = word ++ apostrophe :: rest := by
  have hWord : ∀ d ∈ cs.takeWhile isNameChar, isNameChar d = true := List.all_eq_true.mp List.all_takeWhile
  have hText := List.takeWhile_append_dropWhile (p := isNameChar) (l := cs)
  have hEnds : ∀ d ∈ (cs.dropWhile isNameChar).head?, isNameChar d = false := by
    intro d hd
    have hEnd := List.head?_dropWhile_not isNameChar cs
    rw [Option.mem_def.mp hd] at hEnd
    exact hEnd
  generalize cs.takeWhile isNameChar = word at hWord hText
  generalize cs.dropWhile isNameChar = rest at hEnds hText
  by_cases hPlain : rest.head? = some apostrophe → Text.sameWord (String.ofList (c :: word)) "af" = false
  · exact .inl ⟨word, rest, hWord, hEnds, hPlain, hText.symm⟩
  · obtain ⟨hQuote, hPair⟩ := Classical.not_imp.mp hPlain
    obtain ⟨ds, rfl⟩ := List.head?_eq_some_iff.mp hQuote
    exact .inr ⟨word, ds, hWord, eq_true_of_ne_false hPair, hText.symm⟩

end Names

-- --------
-- Pieces with another text behind them
-- --------

section Replacing

variable {start stop pos start' stop' pos' : Nat} {c : Char} {cs rest' : List Char} {p : Piece}

theorem stringBody_replace {content taken rest : List Char}
    (h : stringBody start stop pos cs = .ok (content, taken, rest)) :
    stringBody start' stop' pos' (taken ++ rest') = .ok (content, taken, rest') := by
  fun_induction stringBody start stop pos cs generalizing content taken rest pos' with
  | case1 | case3 | case4 | case5 | case7 => cases h
  | case2 =>
    cases h
    rw [List.cons_append, stringBody.eq_def]
    rfl
  | case6 pos e es x hEscaped content' taken' rest'' _ hRec ih =>
    cases h
    rw [List.cons_append, List.cons_append, stringBody, if_neg (by decide), if_pos rfl, hEscaped, ih hRec]
  | case8 pos c cs hQuote hSlash content' taken' rest'' hRec ih =>
    cases h
    rw [List.cons_append, stringBody.eq_def]
    dsimp only
    rw [if_neg hQuote, if_neg hSlash, ih hRec]

theorem closeCharacter_replace {x : Char} {taken : List Char} (h : closeCharacter start stop pos x taken cs = .ok p)
    (start' stop' pos' : Nat) (rest' : List Char) :
    closeCharacter start' stop' pos' x taken (apostrophe :: rest') = .ok { p with rest := rest' } ∧
      p.taken = taken ++ [apostrophe] := by
  unfold closeCharacter at h
  split at h
  · cases h
  · split at h
    · next hQuote =>
      cases h
      exact ⟨by rw [closeCharacter, if_pos rfl, hQuote], by rw [hQuote]⟩
    · cases h

theorem characterPiece_replace (h : characterPiece stop pos c cs = .ok p) :
    characterPiece stop' pos' c (p.taken.tail ++ rest') = .ok { p with rest := rest' } := by
  unfold characterPiece at h
  split at h
  · cases h
  · next x xs =>
    split at h
    · next hSlash =>
      split at h
      · cases h
      · next e es =>
        split at h
        · cases h
        · next y hEscaped =>
          obtain ⟨hClose, hTaken⟩ :=
            closeCharacter_replace h pos' stop' (pos' + c.utf8Size + x.utf8Size + e.utf8Size) rest'
          have hTail : p.taken.tail ++ rest' = x :: e :: apostrophe :: rest' := by
            rw [hTaken]
            rfl
          rw [hTail, characterPiece, if_pos hSlash, hEscaped]
          exact hClose
    · next hSlash =>
      obtain ⟨hClose, hTaken⟩ := closeCharacter_replace h pos' stop' (pos' + c.utf8Size + x.utf8Size) rest'
      have hTail : p.taken.tail ++ rest' = x :: apostrophe :: rest' := by
        rw [hTaken]
        rfl
      rw [hTail, characterPiece.eq_def]
      dsimp only
      rw [if_neg hSlash]
      exact hClose

theorem namePiece_replace (h : Follows (namePiece c cs).rest rest') :
    namePiece c ((namePiece c cs).taken.tail ++ rest') = { namePiece c cs with rest := rest' } := by
  rcases namePiece_cases c cs with ⟨word, rest, hWord, hEnds, hPlain, rfl⟩ | ⟨word, rest, hWord, hPair, rfl⟩
  · rw [namePiece_of_word hWord hEnds hPlain] at h ⊢
    exact namePiece_of_word hWord (ends_of_head (fun _ _ hNoLonger => hNoLonger.name) h hEnds) fun hQuote =>
      hPlain (h.quote hQuote)
  · rw [namePiece_of_quote hWord hPair]
    dsimp only [List.cons_append, List.tail_cons]
    rw [List.append_assoc]
    exact namePiece_of_quote hWord hPair

theorem numberPiece_replace (h : numberPiece pos c cs = .ok p) (hRest : Follows p.rest rest') :
    numberPiece pos' c (p.taken.tail ++ rest') = .ok { p with rest := rest' } := by
  unfold numberPiece at h ⊢
  dsimp only at h
  split at h
  · next v hNumber =>
    cases h
    obtain ⟨hTake, hDrop⟩ := takeWhile_of_head (fun _ _ hNoLonger => hNoLonger.name) hRest
    dsimp only [List.tail_cons]
    rw [hTake, hDrop, hNumber]
  · cases h

theorem radixPiece_replace {radix : Nat} (h : radixPiece radix pos c cs = .ok p) (hRest : Follows p.rest rest') :
    radixPiece radix pos' c (p.taken.tail ++ rest') = .ok { p with rest := rest' } := by
  unfold radixPiece at h ⊢
  dsimp only at h
  split at h
  · next v hNumber =>
    cases h
    obtain ⟨hTake, hDrop⟩ := takeWhile_of_head (fun _ _ hNoLonger => hNoLonger.digit radix) hRest
    dsimp only [List.tail_cons]
    rw [hTake, hDrop, hNumber]
  · cases h

/-- A radix that has digits behind it keeps them. -/
theorem digitNext_of_radixPiece {radix : Nat} (h : radixPiece radix pos c cs = .ok p)
    (hNext : digitNext radix cs = true) : digitNext radix (p.taken.tail ++ rest') = true := by
  unfold radixPiece at h
  dsimp only at h
  split at h
  · cases h
    cases cs with
    | nil => cases hNext
    | cons d ds =>
      have hDigit : isDigitIn radix d = true := hNext
      dsimp only [List.tail_cons]
      rw [List.takeWhile_cons_of_pos hDigit]
      exact hDigit
  · cases h

theorem markPiece_of_single {m : Mark} (hLess : c ≠ '<') (hGreater : c ≠ '>') (hm : Mark.ofChar? c = some m) :
    markPiece pos c cs = .ok ⟨some (.mark m), [c], cs⟩ := by
  unfold markPiece
  split
  · exact absurd rfl hLess
  · exact absurd rfl hGreater
  · rw [hm]

theorem markPiece_replace (h : markPiece pos c cs = .ok p) (hRest : Follows p.rest rest') :
    markPiece pos' c (p.taken.tail ++ rest') = .ok { p with rest := rest' } := by
  unfold markPiece at h
  split at h
  · cases h
    rfl
  · cases h
    rfl
  · next hLess hGreater =>
    split at h
    · next m hMark =>
      cases h
      dsimp only [List.tail_cons, List.nil_append]
      unfold markPiece
      split
      · next ds =>
        obtain ⟨d, hd, hNoLonger⟩ := hRest '<' rfl
        obtain ⟨es, rfl⟩ := List.head?_eq_some_iff.mp hd
        rw [hNoLonger.less rfl] at hLess
        exact absurd rfl (hLess es rfl)
      · next ds =>
        obtain ⟨d, hd, hNoLonger⟩ := hRest '>' rfl
        obtain ⟨es, rfl⟩ := List.head?_eq_some_iff.mp hd
        rw [hNoLonger.greater rfl] at hGreater
        exact absurd rfl (hGreater es rfl)
      · rw [hMark]
    · cases h

/-- **A piece stays what it is** if the text behind it is replaced by one that does not go on with it. -/
theorem piece_replace {afterValue : Bool} (h : piece stop pos afterValue c cs = .ok p) (hRest : Follows p.rest rest')
    (hGap : p.lexeme = none → Replaces p.rest rest') (stop' pos' : Nat) :
    piece stop' pos' afterValue c (p.taken.tail ++ rest') = .ok { p with rest := rest' } := by
  unfold piece at h ⊢
  by_cases hNewline : c = '\n'
  · rw [if_pos hNewline] at h ⊢
    cases h
    rfl
  rw [if_neg hNewline] at h ⊢
  by_cases hBlank : Text.isBlank c = true
  · rw [if_pos hBlank] at h ⊢
    cases h
    rfl
  rw [if_neg hBlank] at h ⊢
  by_cases hComment : c = ';'
  · rw [if_pos hComment] at h ⊢
    cases h
    obtain ⟨hTake, hDrop⟩ := takeWhile_of_head (q := (· ≠ '\n'))
      (fun d e hNoLonger he => decide_eq_true (NoLonger.comment hNoLonger (of_decide_eq_true he))) (hGap rfl)
    dsimp only [List.tail_cons]
    rw [hTake, hDrop]
  rw [if_neg hComment] at h ⊢
  by_cases hString : c = '"'
  · rw [if_pos hString] at h ⊢
    unfold stringPiece at h ⊢
    split at h
    · cases h
    · next hBody =>
      cases h
      dsimp only [List.tail_cons]
      rw [stringBody_replace hBody]
  rw [if_neg hString] at h ⊢
  by_cases hQuote : c = apostrophe
  · rw [if_pos hQuote] at h ⊢
    exact characterPiece_replace h
  rw [if_neg hQuote] at h ⊢
  by_cases hName : (c.isAlpha || c == '_') = true
  · rw [if_pos hName] at h ⊢
    cases h
    rw [namePiece_replace hRest]
  rw [if_neg hName] at h ⊢
  by_cases hDigit : c.isDigit = true
  · rw [if_pos hDigit] at h ⊢
    exact numberPiece_replace h hRest
  rw [if_neg hDigit] at h ⊢
  by_cases hDollar : (c == '$' && digitNext 16 cs) = true
  · rw [if_pos hDollar] at h
    rw [Bool.and_eq_true] at hDollar
    rw [if_pos (by rw [hDollar.1, digitNext_of_radixPiece h hDollar.2, Bool.and_self])]
    exact radixPiece_replace h hRest
  rw [if_neg hDollar] at h
  by_cases hPercent : (c == '%' && !afterValue && digitNext 2 cs) = true
  · rw [if_pos hPercent] at h
    rw [Bool.and_eq_true] at hPercent
    have hOther : (c == '$') = false := by
      rw [Bool.and_eq_true, beq_iff_eq] at hPercent
      rw [hPercent.1.1]
      rfl
    rw [hOther, Bool.false_and, if_neg Bool.false_ne_true,
      if_pos (by rw [hPercent.1, digitNext_of_radixPiece h hPercent.2, Bool.and_self])]
    exact radixPiece_replace h hRest
  rw [if_neg hPercent] at h
  -- The digits that a `$` or a `%` lacks do not come with the other text.
  have hNoDigit {m : Mark} {radix : Nat} (hm : Mark.ofChar? c = some m) (hLess : c ≠ '<') (hGreater : c ≠ '>')
      (hNext : digitNext radix cs = false) : digitNext radix (p.taken.tail ++ rest') = false := by
    rw [markPiece_of_single hLess hGreater hm] at h
    cases h
    exact hRest.digitNext hNext
  rw [if_neg, if_neg]
  · exact markPiece_replace h hRest
  · intro hNow
    rw [Bool.and_eq_true] at hNow
    rw [hNow.1, Bool.true_and] at hPercent
    rw [Bool.and_eq_true, beq_iff_eq] at hNow
    obtain ⟨⟨rfl, -⟩, hNext⟩ := hNow
    rw [hNoDigit rfl (by decide) (by decide) (Bool.eq_false_iff.mpr hPercent)] at hNext
    cases hNext
  · intro hNow
    rw [Bool.and_eq_true] at hNow
    rw [hNow.1, Bool.true_and] at hDollar
    rw [beq_iff_eq] at hNow
    obtain ⟨rfl, hNext⟩ := hNow
    rw [hNoDigit rfl (by decide) (by decide) (Bool.eq_false_iff.mpr hDollar)] at hNext
    cases hNext

end Replacing

-- --------
-- Scans, piece by piece
-- --------

section Scanning

variable {stop pos : Nat} {afterValue : Bool} {c : Char} {cs : List Char} {p : Piece}

theorem scanFrom_of_error {d : Diagnostic} (h : piece stop pos afterValue c cs = .error d) :
    scanFrom stop pos afterValue (c :: cs) = .error d := by
  rw [scanFrom]
  split
  · next h' =>
    cases h'.symm.trans h
    rfl
  · next h' => cases h'.symm.trans h

theorem scanFrom_of_blank (h : piece stop pos afterValue c cs = .ok p) (hBlank : p.lexeme = none) :
    scanFrom stop pos afterValue (c :: cs) = scanFrom stop (pos + utf8Length p.taken) afterValue p.rest := by
  rw [scanFrom]
  split
  · next h' => cases h'.symm.trans h
  · next h' =>
    cases h'.symm.trans h
    dsimp only
    rw [hBlank]

theorem scanFrom_of_token {l : Lexeme} (h : piece stop pos afterValue c cs = .ok p) (hLexeme : p.lexeme = some l) :
    scanFrom stop pos afterValue (c :: cs) =
      (scanFrom stop (pos + utf8Length p.taken) l.endsValue p.rest).map (⟨l, ⟨pos, utf8Length p.taken⟩⟩ :: ·) := by
  rw [scanFrom]
  split
  · next h' => cases h'.symm.trans h
  · next h' =>
    cases h'.symm.trans h
    dsimp only
    rw [hLexeme]
    dsimp only
    cases scanFrom stop (pos + utf8Length p.taken) l.endsValue p.rest with
    | error d => rfl
    | ok tokens => rfl

/-- **The tokens before a place** stay what they are if the source is changed from there on. The last of them says
whether it ends a value. -/
theorem Reaches.replace {source : String} {rest : List Char} (h : Reaches source pos afterValue rest) :
    ∃ front before, source.toList = front ++ rest ∧ utf8Length front = pos ∧
      afterValue = before.getLast?.any (fun t => t.lexeme.endsValue) ∧ ∀ stop' rest', Replaces rest rest' →
        scanFrom stop' 0 false (front ++ rest') = (scanFrom stop' pos afterValue rest').map (before ++ ·) := by
  have hKeep {tokens : Except Diagnostic (List Token)} : tokens.map ([] ++ ·) = tokens := by
    cases tokens <;> rfl
  induction h with
  | start => exact ⟨[], [], rfl, rfl, rfl, fun stop' rest' _ => hKeep.symm⟩
  | @blank pos afterValue c cs p h hPiece hBlank ih =>
    obtain ⟨front, before, hText, hFront, hValue, hScan⟩ := ih
    refine ⟨front ++ p.taken, before, piece_text hText hPiece, ?_, hValue, fun stop' rest' hRest => ?_⟩
    · rw [Text.utf8Length_append, hFront]
    · obtain ⟨ts, hTaken, -⟩ := piece_split hPiece
      have hPiece' := piece_replace hPiece hRest.follows (fun _ => hRest) stop' pos
      rw [hTaken, List.tail_cons] at hPiece'
      rw [List.append_assoc, hTaken, List.cons_append, hScan stop' _ .of_head, scanFrom_of_blank hPiece' hBlank]
  | @token pos afterValue c cs p l h hPiece hLexeme ih =>
    obtain ⟨front, before, hText, hFront, -, hScan⟩ := ih
    refine ⟨front ++ p.taken, before ++ [⟨l, ⟨pos, utf8Length p.taken⟩⟩], piece_text hText hPiece, ?_, ?_,
      fun stop' rest' hRest => ?_⟩
    · rw [Text.utf8Length_append, hFront]
    · rw [List.getLast?_concat, Option.any_some]
    · obtain ⟨ts, hTaken, -⟩ := piece_split hPiece
      have hPiece' := piece_replace hPiece hRest.follows (fun _ => hRest) stop' pos
      rw [hTaken, List.tail_cons] at hPiece'
      rw [List.append_assoc, hTaken, List.cons_append, hScan stop' _ .of_head, scanFrom_of_token hPiece' hLexeme]
      dsimp only
      rw [← hTaken]
      cases scanFrom stop' (pos + utf8Length p.taken) l.endsValue rest' with
      | error d => rfl
      | ok tokens => exact congrArg Except.ok (List.append_cons before _ tokens)

/-- A source has the tokens before a place the scan comes to, and then those from there on. -/
theorem Reaches.scan_eq {source : String} {rest : List Char} (h : Reaches source pos afterValue rest) :
    ∃ before, afterValue = before.getLast?.any (fun t => t.lexeme.endsValue) ∧
      scan source = (scanFrom (utf8Length source.toList) pos afterValue rest).map (before ++ ·) := by
  obtain ⟨front, before, hText, -, hValue, hScan⟩ := h.replace
  refine ⟨before, hValue, ?_⟩
  have hSame : Replaces rest rest := fun d hd => ⟨d, hd, .refl d⟩
  rw [← hScan (utf8Length source.toList) rest hSame, ← hText]
  rfl

end Scanning

end CrossAsm.Token
