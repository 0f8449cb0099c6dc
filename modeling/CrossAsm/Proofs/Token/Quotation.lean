import CrossAsm.Proofs.Token.Lookahead

/-!
# CrossAsm — strings read back

A string is written between quotes. A quote or a backslash in it has a backslash in front, and a few other characters
can be written by an escape as well. A string that is written in this way is read back, and every other text behind a
quote is rejected.

* `Token.Quotation` — the ways to write characters between quotes.
* `Token.stringBody_of_quotation`, `Token.quotation_of_stringBody` — the string that is read is the one that is written.
* `Token.Open` — the characters of a string that is not closed yet.
* `Token.stringBody_fails_iff` — a string is rejected for an escape that is none, or for a closing quote it lacks.
* `Token.string_of_quotation` — so strings are read back, alone and in every source.
-/

namespace CrossAsm.Token

open CrossAsm.Text (utf8Length)

-- --------
-- Writing
-- --------

/-- The characters that have an escape, each with the character that stands for it behind a backslash. -/
def escapes : List (Char × Char) :=
  [('"', '"'), (apostrophe, apostrophe), ('\\', '\\'), ('\n', 'n'), ('\r', 'r'), ('\t', 't'), (Char.ofNat 0, '0')]

/-- The ways to write a character: by its escape, or as it is if it is neither a quote nor a backslash. -/
inductive Quoted : Char → List Char → Prop
  | plain {c : Char} (hQuote : c ≠ '"') (hSlash : c ≠ '\\') : Quoted c [c]
  | escape {c e : Char} (h : (c, e) ∈ escapes) : Quoted c ['\\', e]

/-- The ways to write characters one behind the other. -/
inductive Quotation : List Char → List Char → Prop
  | nil : Quotation [] []
  | cons {c : Char} {cs word body : List Char} (h : Quoted c word) (hMore : Quotation cs body) :
      Quotation (c :: cs) (word ++ body)

/-- Every character can be written. -/
theorem exists_quoted (c : Char) : ∃ word, Quoted c word := by
  by_cases hQuote : c = '"'
  · exact ⟨_, .escape (e := '"') (by rw [hQuote]; decide)⟩
  · by_cases hSlash : c = '\\'
    · exact ⟨_, .escape (e := '\\') (by rw [hSlash]; decide)⟩
    · exact ⟨_, .plain hQuote hSlash⟩

/-- **Every string can be written.** -/
theorem exists_quotation (cs : List Char) : ∃ body, Quotation cs body := by
  induction cs with
  | nil => exact ⟨[], .nil⟩
  | cons c cs ih =>
    obtain ⟨word, hWord⟩ := exists_quoted c
    obtain ⟨body, hBody⟩ := ih
    exact ⟨word ++ body, .cons hWord hBody⟩

-- --------
-- Reading
-- --------

theorem escaped?_eq_some_iff {c e : Char} : escaped? e = some c ↔ (c, e) ∈ escapes := by
  constructor
  · intro h
    unfold escaped? at h
    split at h
    · next hSame =>
      obtain rfl := Option.some.inj h
      rcases hSame with rfl | rfl | rfl <;> decide
    · split at h
      · next hNewline =>
        obtain rfl := Option.some.inj h
        subst hNewline
        decide
      · split at h
        · next hReturn =>
          obtain rfl := Option.some.inj h
          subst hReturn
          decide
        · split at h
          · next hTab =>
            obtain rfl := Option.some.inj h
            subst hTab
            decide
          · split at h
            · next hNul =>
              obtain rfl := Option.some.inj h
              subst hNul
              decide
            · cases h
  · have hAll : ∀ pair ∈ escapes, escaped? pair.2 = some pair.1 := by decide
    exact hAll (c, e)

section Reading

variable {start stop pos : Nat} {c e : Char} {cs content taken body rest word front : List Char} {d : Diagnostic}

/-- A character that is written is read as one character. -/
theorem stringBody_of_quoted (h : Quoted c word) (start stop pos : Nat) (cs : List Char) :
    stringBody start stop pos (word ++ cs) =
      (stringBody start stop (pos + utf8Length word) cs).map fun r => (c :: r.1, word ++ r.2.1, r.2.2) := by
  cases h with
  | plain hQuote hSlash =>
    have hLength : utf8Length [c] = c.utf8Size := rfl
    rw [List.singleton_append, hLength]
    -- Only the first character is to be unfolded, so that the rest of the reading gets a name.
    generalize hMore : stringBody start stop (pos + c.utf8Size) cs = more
    unfold stringBody
    rw [if_neg hQuote, if_neg hSlash, hMore]
    cases more with
    | error d => rfl
    | ok r => rfl
  | @escape e h =>
    have hLength : pos + utf8Length ['\\', e] = pos + '\\'.utf8Size + e.utf8Size := by
      simp only [utf8Length, Nat.add_zero, Nat.add_assoc]
    rw [List.cons_append, List.singleton_append, hLength]
    generalize hMore : stringBody start stop (pos + '\\'.utf8Size + e.utf8Size) cs = more
    unfold stringBody
    rw [if_neg (by decide), if_pos rfl]
    dsimp only
    rw [escaped?_eq_some_iff.mpr h, hMore]
    cases more with
    | error d => rfl
    | ok r => rfl

theorem stringBody_of_quote : stringBody start stop pos ('"' :: rest) = .ok ([], ['"'], rest) := by
  unfold stringBody
  rw [if_pos rfl]

/-- **What is written is read**, up to its closing quote. -/
theorem stringBody_of_quotation (h : Quotation content body) (start stop pos : Nat) (rest : List Char) :
    stringBody start stop pos (body ++ '"' :: rest) = .ok (content, body ++ ['"'], rest) := by
  induction h generalizing pos with
  | nil => exact stringBody_of_quote
  | cons hWord _ ih =>
    rw [List.append_assoc, stringBody_of_quoted hWord, ih]
    simp only [Except.map, List.append_assoc]

/-- **What is read is written** in one of these ways. -/
theorem quotation_of_stringBody (h : stringBody start stop pos cs = .ok (content, taken, rest)) :
    ∃ body, Quotation content body ∧ taken = body ++ ['"'] := by
  fun_induction stringBody start stop pos cs generalizing content taken rest with
  | case1 => cases h
  | case2 =>
    cases h
    exact ⟨[], .nil, rfl⟩
  | case3 => cases h
  | case4 => cases h
  | case5 => cases h
  | case6 pos e es x hEscaped content' taken' rest' _ hRead ih =>
    cases h
    obtain ⟨body, hBody, rfl⟩ := ih hRead
    exact ⟨_, .cons (.escape (escaped?_eq_some_iff.mp hEscaped)) hBody, rfl⟩
  | case7 => cases h
  | case8 pos c cs hQuote hSlash content' taken' rest' hRead ih =>
    cases h
    obtain ⟨body, hBody, rfl⟩ := ih hRead
    exact ⟨_, .cons (.plain hQuote hSlash) hBody, rfl⟩

end Reading

-- --------
-- Rejecting
-- --------

/-- A character in a string with all that belongs to it: a backslash takes the character behind it, whatever that
is. -/
inductive Glyph : List Char → Prop
  | plain {c : Char} (hQuote : c ≠ '"') (hSlash : c ≠ '\\') : Glyph [c]
  | escape {e : Char} : Glyph ['\\', e]

/-- The characters of a string that they do not close: no quote among them stands without a backslash. -/
inductive Open : List Char → Prop
  | nil : Open []
  | cons {word cs : List Char} (hWord : Glyph word) (h : Open cs) : Open (word ++ cs)

/-- The string has a closing quote. -/
def HasClosingQuote (cs : List Char) : Prop := ∃ front rest, Open front ∧ cs = front ++ '"' :: rest

/-- The string has, before it is closed, a backslash in front of a character that makes no escape. -/
def HasBadEscape (cs : List Char) : Prop :=
  ∃ front e rest, Open front ∧ cs = front ++ '\\' :: e :: rest ∧ e ∉ escapes.map Prod.snd

section Rejecting

variable {start stop pos : Nat} {c e : Char} {cs content body rest word front : List Char} {d : Diagnostic}

theorem escaped?_eq_none_iff : escaped? e = none ↔ e ∉ escapes.map Prod.snd := by
  rw [Option.eq_none_iff_forall_ne_some, List.mem_map]
  constructor
  · rintro h ⟨⟨c, e'⟩, hMem, rfl⟩
    exact h c (escaped?_eq_some_iff.mpr hMem)
  · intro h c hc
    exact h ⟨(c, e), escaped?_eq_some_iff.mp hc, rfl⟩

theorem Quoted.glyph (h : Quoted c word) : Glyph word := by
  cases h with
  | plain hQuote hSlash => exact .plain hQuote hSlash
  | escape => exact .escape

/-- A glyph stands for a character, or it is an escape that is none. -/
theorem Glyph.quoted_or (h : Glyph word) :
    (∃ c, Quoted c word) ∨ ∃ e, word = ['\\', e] ∧ e ∉ escapes.map Prod.snd := by
  cases h with
  | @plain c hQuote hSlash => exact .inl ⟨c, .plain hQuote hSlash⟩
  | @escape e =>
    by_cases he : e ∈ escapes.map Prod.snd
    · obtain ⟨⟨c, e⟩, hMem, rfl⟩ := List.mem_map.mp he
      exact .inl ⟨c, .escape hMem⟩
    · exact .inr ⟨e, rfl, he⟩

theorem Quotation.isOpen (h : Quotation content body) : Open body := by
  induction h with
  | nil => exact .nil
  | cons hWord _ ih => exact .cons hWord.glyph ih

theorem HasBadEscape.cons (hWord : Glyph word) (h : HasBadEscape cs) : HasBadEscape (word ++ cs) := by
  obtain ⟨front, e, rest, hFront, rfl, he⟩ := h
  exact ⟨word ++ front, e, rest, .cons hWord hFront, (List.append_assoc word front _).symm, he⟩

/-- A string is rejected behind a character if it is rejected with it. -/
theorem stringBody_error_iff (h : Quoted c word) : stringBody start stop pos (word ++ cs) = .error d ↔
    stringBody start stop (pos + utf8Length word) cs = .error d := by
  rw [stringBody_of_quoted h]
  cases stringBody start stop (pos + utf8Length word) cs with
  | error d' => exact Iff.rfl
  | ok r =>
    constructor
    · intro h
      cases h
    · intro h
      cases h

theorem stringBody_of_badEscape (he : e ∉ escapes.map Prod.snd) :
    stringBody start stop pos (['\\', e] ++ rest) = .error (badEscape e (pos + '\\'.utf8Size)) := by
  rw [List.cons_append, List.singleton_append]
  unfold stringBody
  rw [if_neg (by decide), if_pos rfl]
  dsimp only
  rw [escaped?_eq_none_iff.mpr he]

/-- An escape that is none is rejected, whatever stands before it. -/
theorem stringBody_fails_of_badEscape (hFront : Open front) (he : e ∉ escapes.map Prod.snd) (start stop pos : Nat)
    (rest : List Char) : ∃ d, stringBody start stop pos (front ++ '\\' :: e :: rest) = .error d := by
  induction hFront generalizing pos with
  | nil => exact ⟨_, stringBody_of_badEscape he⟩
  | @cons word cs hWord _ ih =>
    rw [List.append_assoc]
    -- The first escape that is none is reported, be it this one or one before it.
    rcases hWord.quoted_or with ⟨c, hQuoted⟩ | ⟨e', rfl, he'⟩
    · obtain ⟨d, hd⟩ := ih (pos + utf8Length word)
      exact ⟨d, (stringBody_error_iff hQuoted).mpr hd⟩
    · exact ⟨_, stringBody_of_badEscape he'⟩

/-- Only for such an escape, a string with a closing quote is rejected. -/
theorem hasBadEscape_of_stringBody (hFront : Open front)
    (h : stringBody start stop pos (front ++ '"' :: rest) = .error d) : HasBadEscape (front ++ '"' :: rest) := by
  induction hFront generalizing pos with
  | nil => cases stringBody_of_quote.symm.trans h
  | @cons word cs hWord _ ih =>
    rw [List.append_assoc] at h ⊢
    rcases hWord.quoted_or with ⟨c, hQuoted⟩ | ⟨e, rfl, he⟩
    · exact (ih ((stringBody_error_iff hQuoted).mp h)).cons hWord
    · exact ⟨[], e, _, .nil, rfl, he⟩

/-- What a string is read as tells where it is closed. -/
theorem exists_quotation_of_ok {r : List Char × List Char × List Char} (h : stringBody start stop pos cs = .ok r) :
    ∃ body, Quotation r.1 body ∧ cs = body ++ '"' :: r.2.2 := by
  obtain ⟨content, taken, rest⟩ := r
  obtain ⟨body, hBody, rfl⟩ := quotation_of_stringBody h
  refine ⟨body, hBody, ?_⟩
  rw [← stringBody_split h, List.append_assoc, List.singleton_append]

/-- **A string is rejected** for an escape that is none, or for a closing quote it lacks. -/
theorem stringBody_fails_iff : (∃ d, stringBody start stop pos cs = .error d) ↔
    HasBadEscape cs ∨ ¬HasClosingQuote cs := by
  constructor
  · rintro ⟨d, hd⟩
    by_cases hClosed : HasClosingQuote cs
    · obtain ⟨front, rest, hFront, rfl⟩ := hClosed
      exact .inl (hasBadEscape_of_stringBody hFront hd)
    · exact .inr hClosed
  · rintro (⟨front, e, rest, hFront, rfl, he⟩ | hOpen)
    · exact stringBody_fails_of_badEscape hFront he start stop pos rest
    · -- A string that is read has been closed.
      cases hRead : stringBody start stop pos cs with
      | error d => exact ⟨d, rfl⟩
      | ok r =>
        obtain ⟨body, hBody, hText⟩ := exists_quotation_of_ok hRead
        exact absurd ⟨body, _, hBody.isOpen, hText⟩ hOpen

end Rejecting

-- --------
-- Strings in a source
-- --------

section Strings

variable {stop pos : Nat} {afterValue : Bool} {s : String} {cs body rest : List Char}

theorem piece_of_quote : piece stop pos afterValue '"' cs = stringPiece stop pos '"' cs := rfl

/-- A string that is written is one token. -/
theorem piece_of_quotation (h : Quotation s.toList body) :
    piece stop pos afterValue '"' (body ++ '"' :: rest) =
      .ok ⟨some (.text s), '"' :: (body ++ ['"']), rest⟩ := by
  rw [piece_of_quote, stringPiece, stringBody_of_quotation h]
  dsimp only
  rw [String.ofList_toList]

theorem piece_of_rejected (h : HasBadEscape cs ∨ ¬HasClosingQuote cs) :
    ∃ d, piece stop pos afterValue '"' cs = .error d := by
  obtain ⟨d, hd⟩ := stringBody_fails_iff.mpr h
  refine ⟨d, ?_⟩
  rw [piece_of_quote, stringPiece, hd]

/-- What is not rejected is written in one of the ways above. -/
theorem exists_quotation_of_accepted (h : ¬(HasBadEscape cs ∨ ¬HasClosingQuote cs)) :
    ∃ (s : String) (body rest : List Char), Quotation s.toList body ∧ cs = body ++ '"' :: rest := by
  cases hRead : stringBody 0 0 0 cs with
  | error d => exact absurd (stringBody_fails_iff.mp ⟨d, hRead⟩) h
  | ok r =>
    obtain ⟨body, hBody, hText⟩ := exists_quotation_of_ok hRead
    refine ⟨String.ofList r.1, body, r.2.2, ?_, hText⟩
    rwa [String.toList_ofList]

/-- The tokens from a string on. -/
theorem scanFrom_of_quotation (h : Quotation s.toList body) :
    scanFrom stop pos afterValue ('"' :: (body ++ '"' :: rest)) =
      (scanFrom stop (pos + utf8Length ('"' :: (body ++ ['"']))) true rest).map
        (⟨.text s, ⟨pos, utf8Length ('"' :: (body ++ ['"']))⟩⟩ :: ·) :=
  scanFrom_of_token (piece_of_quotation h) rfl

/-- A string alone is one token. -/
theorem scan_of_quotation (h : Quotation s.toList body) :
    scan (String.ofList ('"' :: (body ++ ['"']))) =
      .ok [⟨.text s, ⟨0, utf8Length ('"' :: (body ++ ['"']))⟩⟩] := by
  rw [scan, scanChars, String.toList_ofList, scanFrom_of_quotation h, scanFrom]
  rfl

/-- **Strings are read back.** Every string can be written between quotes. However it is written, it is read as one
token that spans the text and has its bytes. A text behind a quote, with nothing behind its closing quote, is rejected
if and only if a backslash stands in it before a character that makes no escape, or it is not closed. The same holds in
a source at every place to which its scan comes, whatever stands behind the string. -/
theorem string_of_quotation :
    (∀ s : String, (∃ body, Quotation s.toList body) ∧ Text.utf8Bytes s.toList = s.toUTF8.data.toList ∧
      ∀ body, Quotation s.toList body → scan (String.ofList ('"' :: (body ++ ['"']))) =
        .ok [⟨.text s, ⟨0, utf8Length ('"' :: (body ++ ['"']))⟩⟩]) ∧
    (∀ cs, (∀ front rest, Open front → cs = front ++ '"' :: rest → rest = []) →
      ((∃ d, scan (String.ofList ('"' :: cs)) = .error d) ↔ HasBadEscape cs ∨ ¬HasClosingQuote cs)) ∧
    ∀ source pos afterValue cs, Reaches source pos afterValue ('"' :: cs) →
      (HasBadEscape cs ∨ ¬HasClosingQuote cs → ∃ d, scan source = .error d) ∧
      (¬(HasBadEscape cs ∨ ¬HasClosingQuote cs) → ∃ (s : String) (body rest : List Char),
        Quotation s.toList body ∧ cs = body ++ '"' :: rest) ∧
      ∀ (s : String) (body rest : List Char), Quotation s.toList body → cs = body ++ '"' :: rest →
        ∃ before, scan source =
          (scanFrom (utf8Length source.toList) (pos + utf8Length ('"' :: (body ++ ['"']))) true rest).map
            fun behind => before ++ ⟨.text s, ⟨pos, utf8Length ('"' :: (body ++ ['"']))⟩⟩ :: behind := by
  refine ⟨fun s => ⟨exists_quotation s.toList, ?_, fun body hBody => scan_of_quotation hBody⟩, fun cs hAlone => ?_, ?_⟩
  · rw [String.toUTF8, ← String.utf8Encode_toList, List.utf8Encode, List.toList_data_toByteArray]
    rfl
  · constructor
    · rintro ⟨d, hd⟩
      -- Else the string would be read, and with nothing behind it that is all there is to read.
      refine Classical.byContradiction fun hAccepted => ?_
      obtain ⟨s, body, rest, hBody, rfl⟩ := exists_quotation_of_accepted hAccepted
      obtain rfl := hAlone body rest hBody.isOpen rfl
      cases (scan_of_quotation hBody).symm.trans hd
    · intro hRejected
      obtain ⟨d, hd⟩ := piece_of_rejected hRejected
      refine ⟨d, ?_⟩
      rw [scan, scanChars, String.toList_ofList, scanFrom_of_error hd]
  · intro source pos afterValue cs hReaches
    obtain ⟨before, -, hScan⟩ := hReaches.scan_eq
    refine ⟨fun hRejected => ?_, exists_quotation_of_accepted, fun s body rest hBody hText => ⟨before, ?_⟩⟩
    · obtain ⟨d, hd⟩ := piece_of_rejected hRejected
      refine ⟨d, ?_⟩
      rw [hScan, scanFrom_of_error hd]
      rfl
    · rw [hScan, hText, scanFrom_of_quotation hBody]
      cases scanFrom (utf8Length source.toList) (pos + utf8Length ('"' :: (body ++ ['"']))) true rest with
      | error d => rfl
      | ok behind => rfl

/-- The string of an `é`, a quote, a backslash and a line feed is read back from `"é\"\\\n"`. A quote behind a backslash
closes nothing, and `\q` is no escape. -/
theorem string_of_quotation_escapes :
    Quotation "é\"\\\n".toList ['é', '\\', '"', '\\', '\\', '\\', 'n'] ∧
      scan (String.ofList ['"', 'é', '\\', '"', '\\', '\\', '\\', 'n', '"']) =
        .ok [⟨.text "é\"\\\n", ⟨0, 10⟩⟩] ∧
      (∃ d, scan (String.ofList ['"', '\\', '"']) = .error d) ∧
      (HasBadEscape ['\\', '"'] ∨ ¬HasClosingQuote ['\\', '"']) ∧
      HasBadEscape ['\\', 'q', '"', ' ', '1'] ∧
      ∃ d, scan "\"\\q\" 1" = .error d := by
  have hBody : Quotation "é\"\\\n".toList ['é', '\\', '"', '\\', '\\', '\\', 'n'] :=
    .cons (.plain (by decide) (by decide)) (.cons (.escape (by decide)) (.cons (.escape (by decide))
      (.cons (.escape (by decide)) .nil)))
  have hAlone : ∀ front rest, Open front → ['\\', '"'] = front ++ '"' :: rest → rest = [] := by
    intro front rest _ hText
    cases front with
    | nil => cases hText
    | cons c cs =>
      have hLength := congrArg List.length hText
      simp only [List.length_append, List.length_cons, List.length_nil] at hLength
      exact List.length_eq_zero_iff.mp (by omega)
  have hOpen : ∃ d, scan (String.ofList ['"', '\\', '"']) = .error d := by
    refine ⟨.unexpectedEnd "'\"'" ⟨0, 3⟩, ?_⟩
    rw [scan, scanChars, String.toList_ofList]
    exact scanFrom_of_error rfl
  have hBad : HasBadEscape ['\\', 'q', '"', ' ', '1'] := ⟨[], 'q', _, .nil, rfl, by decide⟩
  refine ⟨hBody, ?_, hOpen, (string_of_quotation.2.1 ['\\', '"'] hAlone).mp hOpen, hBad, ?_⟩
  · exact (string_of_quotation.1 "é\"\\\n").2.2 ['é', '\\', '"', '\\', '\\', '\\', 'n'] hBody
  have hReaches : Reaches "\"\\q\" 1" 0 false ['"', '\\', 'q', '"', ' ', '1'] := .start
  exact (string_of_quotation.2.2 _ 0 false _ hReaches).1 (.inl hBad)

end Strings

end CrossAsm.Token
