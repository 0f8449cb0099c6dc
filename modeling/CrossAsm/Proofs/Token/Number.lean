import CrossAsm.Proofs.Token.Numeral
import CrossAsm.Proofs.Value

/-!
# CrossAsm — numbers read back

A number can be written in any of its forms, with leading zeros and in any letter case. If it starts with a digit,
underscores may stand anywhere behind that digit. Whatever it looks like, it is read as one token with its value, and
a number that is too large is rejected in every form.

* `Token.Written` — a number in one of its forms, with underscores.
* `Form.written_write` — every number can be written in every form.
* `Token.piece_of_written` — what is written is read as one piece.
* `Token.number_of_written` — so it is read back, alone and in every source.
-/

namespace CrossAsm

namespace Text

variable {radix n : Nat} {cs : List Char}

/-- Every number has digits in every radix. -/
theorem digits_toDigits (hLow : 1 < radix) (hRadix : radix ≤ 16) (n : Nat) : Digits radix n (Nat.toDigits radix n) := by
  have hDigit {d : Nat} (hd : d < radix) : IsDigit radix d (Nat.digitChar d) := by
    have hLower : ∀ d < 16, (Nat.digitChar d).toLower = Nat.digitChar d := by decide
    exact ⟨hd, hLower d (Nat.lt_of_lt_of_le hd hRadix)⟩
  induction n using Nat.strongRecOn with
  | ind n ih =>
    rw [Nat.toDigits_eq_if hLow]
    split
    · next hOne => exact .one (hDigit hOne)
    · next hMore =>
      have hLess : n / radix < n := Nat.div_lt_self (by omega) hLow
      have hDigits := Digits.more (ih (n / radix) hLess) (hDigit (Nat.mod_lt n (by omega)))
      rwa [Nat.div_add_mod'] at hDigits

/-- A zero in front does not count. -/
theorem Digits.zero (hLow : 0 < radix) (h : Digits radix n cs) : Digits radix n ('0' :: cs) := by
  have hZero : Digits radix 0 ['0'] := .one ⟨hLow, rfl⟩
  induction h with
  | @one d c hd =>
    have hDigits := hZero.more hd
    rwa [Nat.zero_mul, Nat.zero_add] at hDigits
  | more _ hd ih => exact .more ih hd

theorem isDigit_of_isDigitIn {c : Char} (h : isDigitIn 10 c = true) : c.isDigit = true := by
  unfold isDigitIn digitOf? at h
  split at h
  · next d hd =>
    have hLess := of_decide_eq_true h
    split at hd
    · next hDigit => exact hDigit
    · split at hd
      · cases hd
        omega
      · split at hd
        · cases hd
          omega
        · cases hd
  · cases h

end Text

namespace Token

open CrossAsm.Text (Digits utf8Length)

-- --------
-- Writing
-- --------

/-- The text is the number in the given form. Underscores may stand behind its first character, unless that is a mark
and no digit. -/
structure Written (form : Form) (n : Nat) (text : List Char) : Prop where
  plain  : Numeral form n (text.filter (· ≠ '_'))
  first  : text.head? ≠ some '_'
  marked : form = .dollar ∨ form = .percent → '_' ∉ text

/-- A number in each of its forms, without underscores. -/
def Form.write (n : Nat) : Form → List Char
  | .dollar => '$' :: Nat.toDigits 16 n
  | .zeroX => '0' :: 'x' :: Nat.toDigits 16 n
  | .suffix => '0' :: (Nat.toDigits 16 n ++ ['h'])
  | .percent => '%' :: Nat.toDigits 2 n
  | .zeroB => '0' :: 'b' :: Nat.toDigits 2 n
  | .decimal => Nat.toDigits 10 n

variable {form : Form} {n : Nat} {text : List Char}

theorem Numeral.written (h : Numeral form n text) (hText : '_' ∉ text) : Written form n text := by
  refine ⟨?_, ?_, fun _ => hText⟩
  · rwa [filter_underscore hText]
  · intro hFirst
    exact hText (List.mem_of_head? hFirst)

/-- **Every number can be written in every form.** -/
theorem Form.written_write (form : Form) (n : Nat) : Written form n (form.write n) := by
  have hHex : Digits 16 n (Nat.toDigits 16 n) := Text.digits_toDigits (by decide) (by decide) n
  have hBinary : Digits 2 n (Nat.toDigits 2 n) := Text.digits_toDigits (by decide) (by decide) n
  have hDecimal : Digits 10 n (Nat.toDigits 10 n) := Text.digits_toDigits (by decide) (by decide) n
  have hHexPlain := hHex.underscore_notMem (by decide)
  have hBinaryPlain := hBinary.underscore_notMem (by decide)
  have hDecimalPlain := hDecimal.underscore_notMem (by decide)
  cases form with
  | dollar => exact (Numeral.dollar hHex).written (by simp [hHexPlain])
  | percent => exact (Numeral.percent hBinary).written (by simp [hBinaryPlain])
  | zeroX =>
    refine Numeral.written (.zeroX rfl ?_) (by simp [Form.write, hHexPlain])
    rwa [filter_underscore hHexPlain]
  | zeroB =>
    refine Numeral.written (.zeroB rfl ?_) (by simp [Form.write, hBinaryPlain])
    rwa [filter_underscore hBinaryPlain]
  | suffix =>
    -- The digits may start with a letter, so that a zero stands in front of them.
    refine Numeral.written (.suffix rfl rfl ?_) (by simp [Form.write, hHexPlain])
    rw [filter_underscore (by simp [hHexPlain])]
    exact hHex.zero (by decide)
  | decimal =>
    rw [Form.write]
    obtain ⟨c, cs, hText⟩ := List.exists_cons_of_ne_nil hDecimal.ne_nil
    rw [hText] at hDecimal hDecimalPlain ⊢
    have hFirst : c.isDigit = true :=
      Text.isDigit_of_isDigitIn (hDecimal.isDigitIn (by decide) c List.mem_cons_self)
    refine Numeral.written (.decimal hFirst ?_) hDecimalPlain
    rwa [filter_underscore hDecimalPlain]

-- --------
-- Reading
-- --------

/-- The first character of a number is not an underscore. -/
theorem Written.exists_cons (h : Written form n text) :
    ∃ c cs, text = c :: cs ∧ Numeral form n (c :: cs.filter (· ≠ '_')) := by
  obtain ⟨hPlain, hFirst, -⟩ := h
  cases text with
  | nil => cases hPlain
  | cons c cs =>
    have hc : c ≠ '_' := fun hUnderscore => hFirst (congrArg some hUnderscore)
    have hText : (c :: cs).filter (· ≠ '_') = c :: cs.filter (· ≠ '_') :=
      List.filter_cons_of_pos (decide_eq_true hc)
    exact ⟨c, cs, rfl, hText ▸ hPlain⟩

/-- **What is written is read as one piece**, whatever stands behind it that is not a part of a name. Only behind a
value, `%` starts no number. -/
theorem piece_of_written {rest : List Char} {afterValue : Bool} (h : Written form n text)
    (hForm : form = .percent → afterValue = false) (hEnds : ∀ d ∈ rest.head?, isNameChar d = false) :
    ∃ c cs, text = c :: cs ∧ ∀ stop pos, piece stop pos afterValue c (cs ++ rest) = readNumber n pos text rest := by
  obtain ⟨c, cs, rfl, hPlain⟩ := h.exists_cons
  refine ⟨c, cs, rfl, fun stop pos => ?_⟩
  by_cases hc : c.isDigit = true
  · have hWord : ∀ d ∈ cs, isNameChar d = true := by
      intro d hd
      by_cases hUnderscore : d = '_'
      · rw [hUnderscore]
        decide
      · exact hPlain.isNameChar d (List.mem_filter.mpr ⟨hd, decide_eq_true hUnderscore⟩)
    obtain ⟨ds, radix, hRadix, hDigits, hLiteral⟩ := hPlain.literal hc
    -- The reader drops the underscores of the whole word, so that it sees the number without them.
    have hCounts : (c :: cs.filter (· ≠ '_')).filter (· ≠ '_') = (c :: cs).filter (· ≠ '_') := by
      rw [List.filter_cons, List.filter_cons, List.filter_filter]
      simp only [Bool.and_self]
    rw [hCounts] at hLiteral
    exact piece_of_literal hc hWord hEnds hRadix hDigits hLiteral stop pos afterValue
  · -- Behind a mark only digits are read, and an underscore would end the number.
    have hUnderscore : '_' ∉ cs := fun hMem => h.marked (hPlain.marked hc) (List.mem_cons_of_mem c hMem)
    rw [filter_underscore hUnderscore] at hPlain
    exact piece_of_marked hPlain hc hForm hEnds stop pos

/-- The tokens from a number on: the number and those behind it, unless it is too large. -/
theorem scanFrom_of_written {rest : List Char} {afterValue : Bool} (h : Written form n text)
    (hForm : form = .percent → afterValue = false) (hEnds : ∀ d ∈ rest.head?, isNameChar d = false) (stop pos : Nat) :
    scanFrom stop pos afterValue (text ++ rest) =
      if n < 2 ^ 63 then
        (scanFrom stop (pos + utf8Length text) true rest).map
          (⟨.number (Value.ofNat n), ⟨pos, utf8Length text⟩⟩ :: ·)
      else .error (.invalidNumber .tooLarge ⟨pos, (text.filter (· ≠ '_')).length⟩) := by
  obtain ⟨c, cs, rfl, hPiece⟩ := piece_of_written h hForm hEnds
  have hPiece := hPiece stop pos
  rw [List.cons_append]
  by_cases hn : n < 2 ^ 63
  · have hLargest : n ≤ Text.largest := Nat.le_of_lt_succ hn
    rw [readNumber, if_pos hLargest] at hPiece
    rw [if_pos hn]
    exact scanFrom_of_token hPiece rfl
  · have hLargest : ¬n ≤ Text.largest := fun hLe => hn (Nat.lt_succ_of_le hLe)
    rw [readNumber, if_neg hLargest] at hPiece
    rw [if_neg hn]
    exact scanFrom_of_error hPiece

/-- **Numbers are read back.** Every number can be written in every form. However it is written, with leading zeros,
in any letter case and with underscores behind a first digit, it is read as one token, its value, that spans the text.
From `2 ^ 63` on it is rejected in every form. The same holds in a source at every place to which its scan comes, if no
more of a name or number stands behind it; then only a `%` needs a token before it that ends no value. -/
theorem number_of_written (form : Form) (n : Nat) :
    Written form n (form.write n) ∧
    ∀ text, Written form n text →
      (n < 2 ^ 63 → (Value.ofNat n).toInt = n ∧
        scan (String.ofList text) = .ok [⟨.number (Value.ofNat n), ⟨0, utf8Length text⟩⟩]) ∧
      (2 ^ 63 ≤ n → scan (String.ofList text) =
        .error (.invalidNumber .tooLarge ⟨0, (text.filter (· ≠ '_')).length⟩)) ∧
      ∀ source pos afterValue rest, Reaches source pos afterValue (text ++ rest) →
        (∀ d ∈ rest.head?, isNameChar d = false) → (form = .percent → afterValue = false) →
        ∃ before, afterValue = before.getLast?.any (fun t => t.lexeme.endsValue) ∧
          (n < 2 ^ 63 → scan source =
            (scanFrom (utf8Length source.toList) (pos + utf8Length text) true rest).map
              fun behind => before ++ ⟨.number (Value.ofNat n), ⟨pos, utf8Length text⟩⟩ :: behind) ∧
          (2 ^ 63 ≤ n → scan source =
            .error (.invalidNumber .tooLarge ⟨pos, (text.filter (· ≠ '_')).length⟩)) := by
  refine ⟨form.written_write n, fun text hText => ?_⟩
  have hAlone : scan (String.ofList text) = scanFrom (utf8Length text) 0 false (text ++ []) := by
    rw [scan, scanChars, String.toList_ofList, List.append_nil]
  have hNil : ∀ d ∈ ([] : List Char).head?, isNameChar d = false := by simp
  refine ⟨fun hn => ⟨Int64.toInt_ofNat_of_lt hn, ?_⟩, fun hn => ?_, ?_⟩
  · rw [hAlone, scanFrom_of_written hText (fun _ => rfl) hNil, if_pos hn, scanFrom]
    rfl
  · rw [hAlone, scanFrom_of_written hText (fun _ => rfl) hNil, if_neg (Nat.not_lt.mpr hn)]
  · intro source pos afterValue rest hReaches hEnds hForm
    obtain ⟨before, hValue, hScan⟩ := hReaches.scan_eq
    refine ⟨before, hValue, fun hn => ?_, fun hn => ?_⟩
    · rw [hScan, scanFrom_of_written hText hForm hEnds, if_pos hn]
      cases scanFrom (utf8Length source.toList) (pos + utf8Length text) true rest with
      | error d => rfl
      | ok behind => rfl
    · rw [hScan, scanFrom_of_written hText hForm hEnds, if_neg (Nat.not_lt.mpr hn)]
      rfl

/-- The hexadecimal number `0_B1_h` could be binary but for its suffix, `%101` is a number behind `#`, and the first
number that is too large is. -/
theorem number_of_written_suffix :
    Written .suffix 0xb1 ['0', '_', 'B', '1', '_', 'h'] ∧
      scan (String.ofList ['0', '_', 'B', '1', '_', 'h']) = .ok [⟨.number (.ofNat 0xb1), ⟨0, 6⟩⟩] ∧
      Written .percent 5 ['%', '1', '0', '1'] ∧
      (∃ before, scan "#%101" = .ok (before ++ [⟨.number (.ofNat 5), ⟨1, 4⟩⟩])) ∧
      Form.dollar.write (2 ^ 63) = "$8000000000000000".toList ∧
      scan (String.ofList (Form.dollar.write (2 ^ 63))) = .error (.invalidNumber .tooLarge ⟨0, 17⟩) := by
  have hHex : Digits 16 0xb1 ['0', 'B', '1'] :=
    @Digits.more 16 11 1 _ '1' (@Digits.more 16 0 11 _ 'B' (.one ⟨by decide, rfl⟩) ⟨by decide, rfl⟩) ⟨by decide, rfl⟩
  have hSuffix : Written .suffix 0xb1 ['0', '_', 'B', '1', '_', 'h'] :=
    ⟨@Numeral.suffix 0xb1 '0' 'h' ['B', '1'] rfl rfl hHex, by decide, by decide⟩
  have hBinary : Digits 2 5 ['1', '0', '1'] :=
    @Digits.more 2 2 1 _ '1' (@Digits.more 2 1 0 _ '0' (.one ⟨by decide, rfl⟩) ⟨by decide, rfl⟩) ⟨by decide, rfl⟩
  have hPercent : Written .percent 5 ['%', '1', '0', '1'] := (Numeral.percent hBinary).written (by decide)
  have hReaches : Reaches "#%101" 1 false (['%', '1', '0', '1'] ++ []) :=
    @Reaches.token "#%101" 0 false '#' ['%', '1', '0', '1'] ⟨some (.mark .hash), ['#'], ['%', '1', '0', '1']⟩ _
      .start rfl rfl
  have hLarge : Form.dollar.write (2 ^ 63) = "$8000000000000000".toList := by decide +kernel
  refine ⟨hSuffix, ?_, hPercent, ?_, hLarge, ?_⟩
  · exact (((number_of_written .suffix 0xb1).2 _ hSuffix).1 (by decide)).2
  · obtain ⟨before, -, hScan, -⟩ :=
      ((number_of_written .percent 5).2 _ hPercent).2.2 "#%101" 1 false [] hReaches (by simp) (fun _ => rfl)
    refine ⟨before, (hScan (by decide)).trans ?_⟩
    rw [scanFrom]
    rfl
  · have hWritten := (number_of_written .dollar (2 ^ 63)).1
    rw [((number_of_written .dollar (2 ^ 63)).2 _ hWritten).2.1 (Nat.le_refl _), hLarge]
    decide +kernel

end Token

end CrossAsm
