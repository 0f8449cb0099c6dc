import CrossAsm.Proofs.Letter
import CrossAsm.Proofs.Token.Lookahead

/-!
# CrossAsm — the ways to write a number

A number is written in one of six forms. The forms with a mark in front have digits alone; in the forms that start with
a digit, underscores may stand between the digits.

* `Text.Digits` — the digits of a number in positional notation, in any letter case.
* `Token.Numeral` — a number in one of its forms.
* `Token.readNumber` — what a number is read as, also if it is too large.
* `Token.piece_of_numeral` — each form is read as its number, if it does not start with `%` behind a value.
-/

namespace CrossAsm

namespace Text

-- --------
-- Digits
-- --------

/-- The digit with the value `d`, in any letter case. -/
structure IsDigit (radix d : Nat) (c : Char) : Prop where
  lt : d < radix
  eq : c.toLower = Nat.digitChar d

/-- The digits of a number. Each digit multiplies what stands before it by the radix. -/
inductive Digits (radix : Nat) : Nat → List Char → Prop
  | one {d : Nat} {c : Char} (h : IsDigit radix d c) : Digits radix d [c]
  | more {n d : Nat} {cs : List Char} {c : Char} (hMore : Digits radix n cs) (h : IsDigit radix d c) :
      Digits radix (n * radix + d) (cs ++ [c])

section Digits

variable {c : Char} {radix n d : Nat} {cs : List Char} (hRadix : radix ≤ 16)

include hRadix

theorem IsDigit.digitOf? (h : IsDigit radix d c) : digitOf? c = some d := by
  have hDigits : ∀ d < 16, Text.digitOf? (Nat.digitChar d) = some d := by decide
  rw [← digitOf?_toLower, h.eq]
  exact hDigits d (Nat.lt_of_lt_of_le h.lt hRadix)

theorem IsDigit.toLower (h : IsDigit radix d c) : IsDigit radix d c.toLower := by
  have hDigits : ∀ d < 16, (Nat.digitChar d).toLower = Nat.digitChar d := by decide
  refine ⟨h.lt, ?_⟩
  rw [h.eq]
  exact hDigits d (Nat.lt_of_lt_of_le h.lt hRadix)

theorem IsDigit.isDigitIn (h : IsDigit radix d c) : isDigitIn radix c = true := by
  rw [Text.isDigitIn, h.digitOf? hRadix]
  exact decide_eq_true h.lt

omit hRadix in
/-- Digits are read one behind the other. -/
theorem readDigits_append (limit m : Nat) (overflow : NumberFault) (cs ds : List Char) :
    readDigits radix limit overflow m (cs ++ ds) =
      (readDigits radix limit overflow m cs).bind fun k => readDigits radix limit overflow k ds := by
  induction cs generalizing m with
  | nil => rfl
  | cons c cs ih =>
    rw [List.cons_append, readDigits, readDigits]
    split
    · rfl
    · split
      · rfl
      · split
        · rfl
        · exact ih _

theorem IsDigit.readDigits_eq (limit m : Nat) (overflow : NumberFault) (h : IsDigit radix d c) :
    readDigits radix limit overflow m [c] =
      if m * radix + d ≤ limit then .ok (m * radix + d) else .error overflow := by
  rw [readDigits, h.digitOf? hRadix]
  dsimp only
  rw [if_neg (Nat.not_le.mpr h.lt), readDigits]
  by_cases hSum : m * radix + d ≤ limit
  · rw [if_neg (Nat.not_lt.mpr hSum), if_pos hSum]
  · rw [if_pos (Nat.not_le.mp hSum), if_neg hSum]

namespace Digits

omit hRadix in
theorem ne_nil (h : Digits radix n cs) : cs ≠ [] := by
  cases h with
  | one => simp
  | more => simp

theorem isDigitIn (h : Digits radix n cs) : ∀ c ∈ cs, isDigitIn radix c = true := by
  induction h with
  | one h => simpa using h.isDigitIn hRadix
  | more _ h ih =>
    intro c hc
    rcases List.mem_append.mp hc with hc | hc
    · exact ih c hc
    · rw [List.mem_singleton.mp hc]
      exact h.isDigitIn hRadix

/-- No digit is an underscore. -/
theorem underscore_notMem (h : Digits radix n cs) : '_' ∉ cs := by
  intro hMem
  cases h.isDigitIn hRadix '_' hMem

theorem toLower (h : Digits radix n cs) : Digits radix n (cs.map Char.toLower) := by
  induction h with
  | one h => exact .one (h.toLower hRadix)
  | more _ h ih =>
    rw [List.map_append]
    exact .more ih (h.toLower hRadix)

/-- **Digits are read as their number** if it is not too large. No part of it is larger than the whole. -/
theorem readDigits_eq (limit : Nat) (overflow : NumberFault) (h : Digits radix n cs) :
    readDigits radix limit overflow 0 cs = if n ≤ limit then .ok n else .error overflow := by
  induction h with
  | @one d c hd =>
    have hStep := hd.readDigits_eq hRadix limit 0 overflow
    rwa [Nat.zero_mul, Nat.zero_add] at hStep
  | @more n d cs c hMore hd ih =>
    have hPart : n ≤ n * radix + d :=
      Nat.le_trans (Nat.le_mul_of_pos_right n (Nat.zero_lt_of_lt hd.lt)) (Nat.le_add_right _ d)
    rw [readDigits_append, ih]
    by_cases hn : n ≤ limit
    · rw [if_pos hn]
      exact hd.readDigits_eq hRadix limit n overflow
    · rw [if_neg hn, if_neg fun hWhole => hn (Nat.le_trans hPart hWhole)]
      rfl

theorem number_eq (h : Digits radix n cs) :
    number radix cs = if n ≤ largest then .ok (Value.ofNat n) else .error .tooLarge := by
  unfold number
  split
  · exact absurd rfl h.ne_nil
  · rw [h.readDigits_eq hRadix]
    split
    · rfl
    · rfl

end Digits

end Digits

end Text

namespace Token

open CrossAsm.Text (Digits isDigitIn)

-- --------
-- Forms
-- --------

/-- The ways to write a number. -/
inductive Form where
  /-- `$1f` -/
  | dollar
  /-- `0x1f` -/
  | zeroX
  /-- `1fh` -/
  | suffix
  /-- `%11111` -/
  | percent
  /-- `0b11111` -/
  | zeroB
  /-- `31` -/
  | decimal
deriving DecidableEq, Repr

/-- The text is the number in the given form. -/
inductive Numeral : Form → Nat → List Char → Prop
  | dollar {n : Nat} {ds : List Char} (h : Digits 16 n ds) : Numeral .dollar n ('$' :: ds)
  | zeroX {n : Nat} {x : Char} {ds : List Char} (hx : x.toLower = 'x') (h : Digits 16 n (ds.filter (· ≠ '_'))) :
      Numeral .zeroX n ('0' :: x :: ds)
  | suffix {n : Nat} {c x : Char} {ds : List Char} (hc : c.isDigit = true) (hx : x.toLower = 'h')
      (h : Digits 16 n ((c :: ds).filter (· ≠ '_'))) : Numeral .suffix n (c :: (ds ++ [x]))
  | percent {n : Nat} {ds : List Char} (h : Digits 2 n ds) : Numeral .percent n ('%' :: ds)
  | zeroB {n : Nat} {x : Char} {ds : List Char} (hx : x.toLower = 'b') (h : Digits 2 n (ds.filter (· ≠ '_'))) :
      Numeral .zeroB n ('0' :: x :: ds)
  | decimal {n : Nat} {c : Char} {ds : List Char} (hc : c.isDigit = true)
      (h : Digits 10 n ((c :: ds).filter (· ≠ '_'))) : Numeral .decimal n (c :: ds)

-- --------
-- Literals that start with a digit
-- --------

section Literals

variable {ds : List Char}

theorem digitsAndRadix_zeroX (ds : List Char) : digitsAndRadix ('0' :: 'x' :: ds) = (ds, 16) := rfl

theorem digitsAndRadix_suffix (hNil : ds ≠ []) (hDigits : ∀ c ∈ ds, isDigitIn 16 c = true) :
    digitsAndRadix (ds ++ ['h']) = (ds, 16) := by
  unfold digitsAndRadix
  split
  · next digits hText =>
    -- An `x` is neither a digit nor the suffix.
    have hx : 'x' ∈ ds ++ ['h'] := by simp [hText]
    rcases List.mem_append.mp hx with hx | hx
    · cases hDigits _ hx
    · cases List.mem_singleton.mp hx
  · rw [List.getLast?_concat, List.dropLast_concat, if_pos ⟨rfl, hNil, List.all_eq_true.mpr hDigits⟩]

/-- No digit is an `h`. -/
theorem not_suffix {radix : Nat} {literal : List Char} {P : Prop} (hRadix : isDigitIn radix 'h' = false)
    (hDigits : ∀ c ∈ literal, c = 'b' ∨ isDigitIn radix c = true) : ¬(literal.getLast? = some 'h' ∧ P) := by
  rintro ⟨hLast, -⟩
  rcases hDigits 'h' (List.mem_of_getLast? hLast) with hb | hDigit
  · cases hb
  · rw [hRadix] at hDigit
    cases hDigit

theorem digitsAndRadix_zeroB (hDigits : ∀ c ∈ ds, isDigitIn 2 c = true) :
    digitsAndRadix ('0' :: 'b' :: ds) = (ds, 2) := by
  have hAll : ∀ c ∈ '0' :: 'b' :: ds, c = 'b' ∨ isDigitIn 2 c = true := by
    intro c hc
    rcases List.mem_cons.mp hc with rfl | hc
    · exact .inr (by decide)
    · exact (List.mem_cons.mp hc).imp_right (hDigits c)
  unfold digitsAndRadix
  split
  · next hText => cases hText
  · rw [if_neg (not_suffix (by decide) hAll)]
    rfl

theorem digitsAndRadix_decimal (hDigits : ∀ c ∈ ds, isDigitIn 10 c = true) : digitsAndRadix ds = (ds, 10) := by
  unfold digitsAndRadix
  split
  · cases hDigits 'x' (by simp)
  · rw [if_neg (not_suffix (by decide) fun c hc => .inr (hDigits c hc))]
    split
    · cases hDigits 'b' (by simp)
    · rfl

theorem filter_underscore {cs : List Char} (h : '_' ∉ cs) : cs.filter (· ≠ '_') = cs := by
  refine List.filter_eq_self.mpr fun c hc => decide_eq_true ?_
  rintro rfl
  exact h hc

/-- Underscores do not count, in any letter case. -/
theorem filter_toLower (cs : List Char) :
    (cs.map Char.toLower).filter (· ≠ '_') = (cs.filter (· ≠ '_')).map Char.toLower := by
  rw [List.filter_map]
  refine congrArg (List.map Char.toLower) (List.filter_congr fun c _ => ?_)
  simp only [Function.comp_apply, ne_eq, Text.toLower_eq_underscore_iff]

theorem isNameChar_of_filter {radix : Nat} (hDigits : ∀ c ∈ ds.filter (· ≠ '_'), isDigitIn radix c = true) :
    ∀ c ∈ ds, isNameChar c = true := by
  intro c hc
  by_cases hUnderscore : c = '_'
  · rw [hUnderscore]
    decide
  · exact isNameChar_of_isDigitIn (hDigits c (List.mem_filter.mpr ⟨hc, decide_eq_true hUnderscore⟩))

theorem isNameChar_toLower (c : Char) : isNameChar c.toLower = isNameChar c :=
  Text.of_toLower (P := fun c d => isNameChar d = isNameChar c) (fun _ => rfl) (by decide) c

/-- What a number is read as: its value, unless it is too large. -/
def readNumber (n pos : Nat) (text rest : List Char) : Except Diagnostic Piece :=
  if n ≤ Text.largest then .ok ⟨some (.number (Value.ofNat n)), text, rest⟩
  else .error (.invalidNumber .tooLarge ⟨pos, (text.filter (· ≠ '_')).length⟩)

/-- A word that starts with a digit is read as the number it stands for. -/
theorem piece_of_literal {c : Char} {word rest : List Char} {n radix : Nat} (hc : c.isDigit = true)
    (hWord : ∀ d ∈ word, isNameChar d = true) (hEnds : ∀ d ∈ rest.head?, isNameChar d = false)
    (hRadix : radix ≤ 16) (hDigits : Digits radix n ds)
    (hLiteral : digitsAndRadix (((c :: word).filter (· ≠ '_')).map Char.toLower) = (ds, radix))
    (stop pos : Nat) (afterValue : Bool) :
    piece stop pos afterValue c (word ++ rest) = readNumber n pos (c :: word) rest := by
  have hDigit : c ≠ '\n' ∧ Text.isBlank c = false ∧ c ≠ ';' ∧ c ≠ '"' ∧ c ≠ apostrophe ∧
      (c.isAlpha || c == '_') = false := by
    obtain ⟨hLow, hHigh⟩ := Bool.and_eq_true_iff.mp hc
    have hLow : 48 ≤ c.toNat := UInt32.le_iff_toNat_le.mp (of_decide_eq_true hLow)
    have hHigh : c.toNat ≤ 57 := UInt32.le_iff_toNat_le.mp (of_decide_eq_true hHigh)
    exact @Text.of_codes (fun c => c ≠ '\n' ∧ Text.isBlank c = false ∧ c ≠ ';' ∧ c ≠ '"' ∧ c ≠ apostrophe ∧
      (c.isAlpha || c == '_') = false) 48 10 (by decide) c hLow (by omega)
  obtain ⟨hNewline, hBlank, hComment, hString, hQuote, hName⟩ := hDigit
  obtain ⟨hTake, hDrop⟩ := takeWhile_of_ends hWord hEnds
  unfold piece
  rw [if_neg hNewline, if_neg (Bool.eq_false_iff.mp hBlank), if_neg hComment, if_neg hString, if_neg hQuote,
    if_neg (Bool.eq_false_iff.mp hName), if_pos hc]
  unfold numberPiece
  dsimp only
  rw [hTake, hDrop, filter_toLower, hLiteral, List.length_map, readNumber]
  dsimp only
  rw [hDigits.number_eq hRadix]
  by_cases hn : n ≤ Text.largest
  · rw [if_pos hn, if_pos hn]
  · rw [if_neg hn, if_neg hn]

/-- A word of digits behind a mark is read as its number. -/
theorem radixPiece_of_digits {radix n : Nat} {c : Char} {rest : List Char} (hRadix : radix ≤ 16)
    (h : Digits radix n ds) (hc : c ≠ '_') (hEnds : ∀ d ∈ rest.head?, isNameChar d = false) (pos : Nat) :
    radixPiece radix pos c (ds ++ rest) = readNumber n pos (c :: ds) rest := by
  have hEnds' : ∀ d ∈ rest.head?, isDigitIn radix d = false := by
    intro d hd
    refine Bool.eq_false_iff.mpr fun hDigit => ?_
    exact Bool.false_ne_true ((hEnds d hd).symm.trans (isNameChar_of_isDigitIn hDigit))
  obtain ⟨hTake, hDrop⟩ := takeWhile_of_ends (h.isDigitIn hRadix) hEnds'
  have hFilter : (c :: ds).filter (· ≠ '_') = c :: ds :=
    filter_underscore (List.not_mem_cons_of_ne_of_not_mem hc.symm (h.underscore_notMem hRadix))
  unfold radixPiece
  dsimp only
  rw [hTake, hDrop, h.number_eq hRadix, readNumber, hFilter]
  by_cases hn : n ≤ Text.largest
  · rw [if_pos hn, if_pos hn]
  · rw [if_neg hn, if_neg hn]
    rfl

theorem digitNext_of_digits {radix n : Nat} {rest : List Char} (hRadix : radix ≤ 16) (h : Digits radix n ds) :
    digitNext radix (ds ++ rest) = true := by
  obtain ⟨d, more, rfl⟩ := List.exists_cons_of_ne_nil h.ne_nil
  exact h.isDigitIn hRadix d List.mem_cons_self

end Literals

/-- Behind its first character, a number has only characters of names. -/
theorem Numeral.isNameChar {form : Form} {n : Nat} {c : Char} {cs : List Char} (h : Numeral form n (c :: cs)) :
    ∀ d ∈ cs, Token.isNameChar d = true := by
  have hLetter {x y : Char} (hx : x.toLower = y) (hy : Token.isNameChar y = true) :
      Token.isNameChar x = true := by
    rwa [← isNameChar_toLower, hx]
  cases h with
  | dollar h => exact fun c hc => isNameChar_of_isDigitIn (h.isDigitIn (Nat.le_refl _) c hc)
  | percent h => exact fun c hc => isNameChar_of_isDigitIn (h.isDigitIn (by decide) c hc)
  | zeroX hx h =>
    exact List.forall_mem_cons.mpr ⟨hLetter hx (by decide), isNameChar_of_filter (h.isDigitIn (Nat.le_refl _))⟩
  | zeroB hx h =>
    exact List.forall_mem_cons.mpr ⟨hLetter hx (by decide), isNameChar_of_filter (h.isDigitIn (by decide))⟩
  | @suffix _ c x ds hc hx h =>
    intro d hd
    rcases List.mem_append.mp hd with hd | hd
    · exact isNameChar_of_filter (h.isDigitIn (Nat.le_refl _)) d (List.mem_cons_of_mem c hd)
    · rw [List.mem_singleton.mp hd]
      exact hLetter hx (by decide)
  | @decimal _ c ds hc h =>
    exact fun d hd => isNameChar_of_filter (h.isDigitIn (by decide)) d (List.mem_cons_of_mem c hd)

/-- A number is written within a line. -/
theorem Numeral.count_newline {form : Form} {n : Nat} {numeral : List Char} (h : Numeral form n numeral) :
    numeral.count '\n' = 0 := by
  have hDigit {c : Char} (hc : c.isDigit = true) : c ≠ '\n' := by
    rintro rfl
    cases hc
  have hCount {c : Char} {cs : List Char} (h : Numeral form n (c :: cs)) (hc : c ≠ '\n') :
      (c :: cs).count '\n' = 0 := by
    refine List.count_eq_zero.mpr fun hMem => ?_
    rcases List.mem_cons.mp hMem with rfl | hMem
    · exact hc rfl
    · cases h.isNameChar _ hMem
  cases h with
  | dollar h => exact hCount (.dollar h) (by decide)
  | percent h => exact hCount (.percent h) (by decide)
  | zeroX hx h => exact hCount (.zeroX hx h) (by decide)
  | zeroB hx h => exact hCount (.zeroB hx h) (by decide)
  | suffix hc hx h => exact hCount (.suffix hc hx h) (hDigit hc)
  | decimal hc h => exact hCount (.decimal hc h) (hDigit hc)

/-- A number that starts with a digit has digits in some radix. -/
theorem Numeral.literal {form : Form} {n : Nat} {c : Char} {cs : List Char} (h : Numeral form n (c :: cs))
    (hc : c.isDigit = true) :
    ∃ ds radix, radix ≤ 16 ∧ Digits radix n ds ∧
      digitsAndRadix (((c :: cs).filter (· ≠ '_')).map Char.toLower) = (ds, radix) := by
  have hCounts {x y : Char} (hx : x.toLower = y) (hy : y ≠ '_') (cs : List Char) :
      (x :: cs).filter (· ≠ '_') = x :: cs.filter (· ≠ '_') := by
    refine List.filter_cons_of_pos (decide_eq_true fun hUnderscore => hy ?_)
    rw [← hx, hUnderscore]
    rfl
  cases h with
  | dollar => cases hc
  | percent => cases hc
  | @zeroX _ x ds hx h =>
    have hLiteral : (('0' :: x :: ds).filter (· ≠ '_')).map Char.toLower =
        '0' :: 'x' :: (ds.filter (· ≠ '_')).map Char.toLower := by
      rw [List.filter_cons_of_pos rfl, hCounts hx (by decide), List.map_cons, List.map_cons, hx]
      rfl
    refine ⟨_, 16, Nat.le_refl _, h.toLower (Nat.le_refl _), ?_⟩
    rw [hLiteral, digitsAndRadix_zeroX]
  | @zeroB _ x ds hx h =>
    have hLower := h.toLower (by decide)
    have hLiteral : (('0' :: x :: ds).filter (· ≠ '_')).map Char.toLower =
        '0' :: 'b' :: (ds.filter (· ≠ '_')).map Char.toLower := by
      rw [List.filter_cons_of_pos rfl, hCounts hx (by decide), List.map_cons, List.map_cons, hx]
      rfl
    refine ⟨_, 2, by decide, hLower, ?_⟩
    rw [hLiteral, digitsAndRadix_zeroB (hLower.isDigitIn (by decide))]
  | @suffix _ _ x ds _ hx h =>
    have hLower := h.toLower (Nat.le_refl _)
    have hLiteral : ((c :: (ds ++ [x])).filter (· ≠ '_')).map Char.toLower =
        ((c :: ds).filter (· ≠ '_')).map Char.toLower ++ ['h'] := by
      rw [← List.cons_append, List.filter_append, List.map_append, hCounts hx (by decide),
        List.filter_nil, List.map_singleton, hx]
    refine ⟨_, 16, Nat.le_refl _, hLower, ?_⟩
    rw [hLiteral, digitsAndRadix_suffix hLower.ne_nil (hLower.isDigitIn (Nat.le_refl _))]
  | decimal _ h =>
    have hLower := h.toLower (by decide)
    exact ⟨_, 10, by decide, hLower, digitsAndRadix_decimal (hLower.isDigitIn (by decide))⟩

/-- The other numbers have a mark in front. -/
theorem Numeral.marked {form : Form} {n : Nat} {c : Char} {cs : List Char} (h : Numeral form n (c :: cs))
    (hc : ¬c.isDigit = true) : form = .dollar ∨ form = .percent := by
  cases h with
  | dollar => exact .inl rfl
  | percent => exact .inr rfl
  | zeroX => exact absurd rfl hc
  | zeroB => exact absurd rfl hc
  | suffix hDigit => exact absurd hDigit hc
  | decimal hDigit => exact absurd hDigit hc

/-- A number that starts with a mark is read as its digits, unless the mark is `%` and stands behind a value. -/
theorem piece_of_marked {form : Form} {n : Nat} {c : Char} {cs rest : List Char} {afterValue : Bool}
    (h : Numeral form n (c :: cs)) (hc : ¬c.isDigit = true) (hForm : form = .percent → afterValue = false)
    (hEnds : ∀ d ∈ rest.head?, isNameChar d = false) (stop pos : Nat) :
    piece stop pos afterValue c (cs ++ rest) = readNumber n pos (c :: cs) rest := by
  cases h with
  | dollar h =>
    have hNext : digitNext 16 (cs ++ rest) = true := digitNext_of_digits (Nat.le_refl _) h
    have hPiece : piece stop pos afterValue '$' (cs ++ rest) = radixPiece 16 pos '$' (cs ++ rest) := by
      unfold piece
      rw [hNext]
      rfl
    rw [hPiece]
    exact radixPiece_of_digits (Nat.le_refl _) h (by decide) hEnds pos
  | percent h =>
    have hNext : digitNext 2 (cs ++ rest) = true := digitNext_of_digits (by decide) h
    have hPiece : piece stop pos afterValue '%' (cs ++ rest) = radixPiece 2 pos '%' (cs ++ rest) := by
      unfold piece
      rw [hNext, hForm rfl]
      rfl
    rw [hPiece]
    exact radixPiece_of_digits (by decide) h (by decide) hEnds pos
  | zeroX => exact absurd rfl hc
  | zeroB => exact absurd rfl hc
  | suffix hDigit => exact absurd hDigit hc
  | decimal hDigit => exact absurd hDigit hc

/-- **Every form of a number is read as the number.** Only behind a value, `%` starts none. -/
theorem piece_of_numeral {form : Form} {n : Nat} {numeral rest : List Char} {afterValue : Bool}
    (h : Numeral form n numeral) (hn : n ≤ Text.largest) (hForm : form = .percent → afterValue = false)
    (hEnds : ∀ d ∈ rest.head?, isNameChar d = false) :
    ∃ c cs, numeral = c :: cs ∧ ∀ stop pos,
      piece stop pos afterValue c (cs ++ rest) = .ok ⟨some (.number (Value.ofNat n)), numeral, rest⟩ := by
  cases numeral with
  | nil => cases h
  | cons c cs =>
    refine ⟨c, cs, rfl, fun stop pos => ?_⟩
    have hPiece : piece stop pos afterValue c (cs ++ rest) = readNumber n pos (c :: cs) rest := by
      by_cases hc : c.isDigit = true
      · obtain ⟨ds, radix, hRadix, hDigits, hLiteral⟩ := h.literal hc
        exact piece_of_literal hc h.isNameChar hEnds hRadix hDigits hLiteral stop pos afterValue
      · exact piece_of_marked h hc hForm hEnds stop pos
    rw [hPiece, readNumber, if_pos hn]

end Token

end CrossAsm
