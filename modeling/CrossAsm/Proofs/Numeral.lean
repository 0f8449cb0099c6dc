import CrossAsm.Proofs.Assembly.Listing
import CrossAsm.Proofs.Assembly.Outcome
import CrossAsm.Proofs.Expr.Alternation
import CrossAsm.Proofs.Token.Likeness
import CrossAsm.Proofs.Token.Numeral

/-!
# CrossAsm — the form of a number does not matter

A number can be written in another form, with blanks around it, and the source means the same. The exception is `%`
behind a token that can end a value: there it is the remainder operator. Inside an expression that is what it should
be, but the name of an instruction or a directive is such a token too, and the program counter `*` is none.

* `Likeness.moved`, `Token.sources_of_token` — sources that differ at a place, but not in their tokens.
* `Token.NumberAt.sources` — so are sources with a number in different forms.
* `Token.NumberAt.sources_of_percent` — and those with `%` behind a value, with or without a blank behind it.
* `Family.numeral_form_irrelevant` — what is assembled from a number in another form.
-/

namespace CrossAsm

open CrossAsm.Text (utf8Length)

-- --------
-- Sources with the same tokens
-- --------

/-- The number of newlines before a byte of the source. -/
def newlinesBefore (source : String) (offset : Nat) : Nat := (newlineOffsets 0 source.toList).countP (· < offset)

theorem newlinesBefore_eq {source : String} {front rest : List Char} (h : source.toList = front ++ rest) :
    newlinesBefore source (utf8Length front) = front.count '\n' := by
  rw [newlinesBefore, h]
  exact countP_newlineOffsets front rest

/-- All places correspond, and offsets on the same line. -/
def Likeness.moved (source source' : String) : Likeness :=
  .verbatimly (fun _ _ => True) (fun a b => newlinesBefore source a = newlinesBefore source' b) True trivial
    (fun _ _ => trivial) (fun _ _ => trivial)

namespace Token

variable {source : String} {front rest : List Char} {afterValue : Bool}

/-- **Changes behind a place** that keep the tokens from there on make sources that are alike. -/
theorem sources_moved (hReaches : Reaches source (utf8Length front) afterValue rest)
    (hText : source.toList = front ++ rest) {source₁ source₂ : String} {rest₁ rest₂ : List Char}
    (h₁ : Replaces rest rest₁) (h₂ : Replaces rest rest₂) (hText₁ : source₁.toList = front ++ rest₁)
    (hText₂ : source₂.toList = front ++ rest₂) (hLines : rest₁.count '\n' = rest₂.count '\n')
    (hScan : (Likeness.moved source₁ source₂).Results (List.Forall₂ (Token.Like (.moved source₁ source₂)))
      (scanFrom (utf8Length source₁.toList) (utf8Length front) afterValue rest₁)
      (scanFrom (utf8Length source₂.toList) (utf8Length front) afterValue rest₂)) :
    (Likeness.moved source₁ source₂).Sources source₁ source₂ := by
  obtain ⟨front', before, hText', -, -, hReplace⟩ := hReaches.replace
  obtain rfl : front' = front := List.append_cancel_right (hText'.symm.trans hText)
  -- The tokens before the place are the same, on the same lines.
  have hBefore : List.Forall₂ (Token.Like (.moved source₁ source₂)) before before := by
    have hScanned : scanFrom 0 0 false front' = .ok before := by
      have hNil := hReplace 0 [] fun d hd => by cases hd
      rw [List.append_nil, scanFrom] at hNil
      rw [hNil]
      exact congrArg Except.ok (List.append_nil before)
    refine List.forall₂_same.mpr fun t ht => ⟨.refl (fun _ => rfl) t.lexeme, trivial, ?_⟩
    obtain ⟨fr, word, more, rfl, hSpan, -⟩ := (spread_scanFrom hScanned).before ht
    have hLine {source' : String} {rest' : List Char} (hText : source'.toList = fr ++ word ++ more ++ rest') :
        newlinesBefore source' (utf8Length fr) = fr.count '\n' := by
      rw [List.append_assoc, List.append_assoc] at hText
      exact newlinesBefore_eq hText
    show newlinesBefore source₁ t.span.start = newlinesBefore source₂ t.span.start
    rw [hSpan, Nat.zero_add, hLine hText₁, hLine hText₂]
  refine ⟨?_, ⟨.same rfl, trivial, ?_⟩, trivial, id⟩
  · rw [scan, scanChars, scan, scanChars, hText₁, hText₂, hReplace _ _ h₁, hReplace _ _ h₂, ← hText₁, ← hText₂]
    exact hScan.map fun _ _ hTokens => List.rel_append hBefore hTokens
  · show newlinesBefore source₁ source₁.utf8ByteSize = newlinesBefore source₂ source₂.utf8ByteSize
    rw [← utf8Length_toList, ← utf8Length_toList, newlinesBefore_eq (List.append_nil _).symm,
      newlinesBefore_eq (List.append_nil _).symm, hText₁, hText₂, List.count_append, List.count_append, hLines]

/-- A text at the end of two sources has the same tokens if it starts on the same line. -/
theorem scanFrom_moved {source₁ source₂ : String} {front₁ front₂ cs : List Char} (h₁ : source₁.toList = front₁ ++ cs)
    (h₂ : source₂.toList = front₂ ++ cs) (hLines : front₁.count '\n' = front₂.count '\n') (stop₁ stop₂ : Nat)
    (afterValue : Bool) :
    (Likeness.moved source₁ source₂).Results (List.Forall₂ (Token.Like (.moved source₁ source₂)))
      (scanFrom stop₁ (utf8Length front₁) afterValue cs) (scanFrom stop₂ (utf8Length front₂) afterValue cs) := by
  refine scanFrom_like (fun _ _ => trivial) (fun _ => rfl) afterValue cs fun fr more hcs => ?_
  show newlinesBefore source₁ (utf8Length front₁ + utf8Length fr) =
    newlinesBefore source₂ (utf8Length front₂ + utf8Length fr)
  rw [hcs, ← List.append_assoc] at h₁ h₂
  rw [← Text.utf8Length_append, ← Text.utf8Length_append, newlinesBefore_eq h₁, newlinesBefore_eq h₂, List.count_append,
    List.count_append, hLines]

/-- So sources are alike if they have the same token at a place and the same text behind it. -/
theorem sources_of_token (hReaches : Reaches source (utf8Length front) afterValue rest)
    (hText : source.toList = front ++ rest) {source₁ source₂ : String} {rest₁ rest₂ front₁ front₂ more : List Char}
    (h₁ : Replaces rest rest₁) (h₂ : Replaces rest rest₂) (hText₁ : source₁.toList = front ++ rest₁)
    (hText₂ : source₂.toList = front ++ rest₂) (hFront₁ : source₁.toList = front₁ ++ more)
    (hFront₂ : source₂.toList = front₂ ++ more) (hLines : front₁.count '\n' = front₂.count '\n') {l : Lexeme}
    {s₁ s₂ : Span} (hStart : newlinesBefore source₁ s₁.start = newlinesBefore source₂ s₂.start)
    (hScan₁ : scanFrom (utf8Length source₁.toList) (utf8Length front) afterValue rest₁ =
      (scanFrom (utf8Length source₁.toList) (utf8Length front₁) l.endsValue more).map (⟨l, s₁⟩ :: ·))
    (hScan₂ : scanFrom (utf8Length source₂.toList) (utf8Length front) afterValue rest₂ =
      (scanFrom (utf8Length source₂.toList) (utf8Length front₂) l.endsValue more).map (⟨l, s₂⟩ :: ·)) :
    (Likeness.moved source₁ source₂).Sources source₁ source₂ := by
  have hCount : front.count '\n' + rest₁.count '\n' = front.count '\n' + rest₂.count '\n' := by
    rw [← List.count_append, ← List.count_append, ← hText₁, ← hText₂, hFront₁, hFront₂, List.count_append,
      List.count_append, hLines]
  refine sources_moved hReaches hText h₁ h₂ hText₁ hText₂ (Nat.add_left_cancel hCount) ?_
  rw [hScan₁, hScan₂]
  exact (scanFrom_moved hFront₁ hFront₂ hLines _ _ l.endsValue).map fun _ _ hTokens =>
    .cons ⟨.refl (fun _ => rfl) l, trivial, hStart⟩ hTokens

-- --------
-- Blanks
-- --------

/-- Some blanks within a line. -/
structure Blanks (cs : List Char) : Prop where
  ne_nil : cs ≠ []
  blank  : ∀ c ∈ cs, Text.isBlank c = true ∧ c ≠ '\n'

theorem isNameChar_of_isBlank {c : Char} (h : Text.isBlank c = true) : isNameChar c = false := by
  refine Bool.eq_false_iff.mpr fun hName => ?_
  rw [isBlank_of_isNameChar hName] at h
  cases h

/-- No token goes on with a blank. -/
theorem noLongerToken_blank (c : Char) {d : Char} (hd : Text.isBlank d = true) : NoLongerToken c d := by
  have hName := isNameChar_of_isBlank hd
  have hOther {e : Char} (he : Text.isBlank e = false) : d ≠ e := by
    rintro rfl
    rw [hd] at he
    cases he
  refine ⟨fun h => ?_, fun radix h => ?_, fun h => ?_, fun h => ?_, fun h => ?_⟩
  · rw [hName] at h
    cases h
  · rw [isNameChar_of_isDigitIn h] at hName
    cases hName
  · exact absurd h (hOther (by decide))
  · exact absurd h (hOther (by decide))
  · exact absurd h (hOther (by decide))

namespace Blanks

theorem space : Blanks [' '] := by
  refine ⟨List.cons_ne_nil _ _, fun c hc => ?_⟩
  rw [List.mem_singleton.mp hc]
  decide

variable {blanks more : List Char} (h : Blanks blanks)

include h

theorem count_newline : blanks.count '\n' = 0 := List.count_eq_zero.mpr fun hMem => (h.blank _ hMem).2 rfl

theorem head : ∀ d ∈ (blanks ++ more).head?, Text.isBlank d = true := by
  obtain ⟨c, cs, rfl⟩ := List.exists_cons_of_ne_nil h.ne_nil
  intro d hd
  obtain rfl := Option.some.inj hd
  exact (h.blank c List.mem_cons_self).1

theorem replaces {c : Char} {cs : List Char} (hc : c ≠ '\n') : Replaces (c :: cs) (blanks ++ more) :=
  fun d hd => ⟨c, rfl, noLongerToken_blank c (h.head d hd), fun _ => hc⟩

/-- The tokens behind blanks. -/
theorem scanFrom_eq (stop pos : Nat) (afterValue : Bool) (cs : List Char) :
    scanFrom stop pos afterValue (blanks ++ cs) = scanFrom stop (pos + utf8Length blanks) afterValue cs := by
  have hBlank := h.blank
  clear h
  induction blanks generalizing pos with
  | nil => rfl
  | cons c blanks ih =>
    obtain ⟨⟨hc, hNewline⟩, hBlanks⟩ := List.forall_mem_cons.mp hBlank
    have hPiece : piece stop pos afterValue c (blanks ++ cs) = .ok ⟨none, [c], blanks ++ cs⟩ := by
      unfold piece
      rw [if_neg hNewline, if_pos hc]
    rw [List.cons_append, scanFrom_of_blank hPiece rfl, ih _ hBlanks]
    simp only [utf8Length, Nat.add_zero, Nat.add_assoc]

end Blanks

-- --------
-- Numbers in another form
-- --------

/-- The token behind `front` is a number with the value `v`, written as `literal` within a line. `afterValue` says
whether the token before it can end a value. -/
structure NumberAt (source : String) (front literal after : List Char) (afterValue : Bool) (v : Value) : Prop where
  text    : source.toList = front ++ (literal ++ after)
  reached : Reaches source (utf8Length front) afterValue (literal ++ after)
  piece   : ∃ c cs, literal = c :: cs ∧
    piece (utf8Length source.toList) (utf8Length front) afterValue c (cs ++ after) =
      .ok ⟨some (.number v), literal, after⟩
  inLine  : '\n' ∉ literal

variable {literal after left right numeral : List Char} {v : Value} {form : Form} {n : Nat}

/-- **The source with the number in another form** has the same tokens, if that form is read as a number there. -/
theorem NumberAt.sources (h : NumberAt source front literal after afterValue (.ofNat n)) (hLeft : Blanks left)
    (hRight : Blanks right) (hNumeral : Numeral form n numeral) (hn : n ≤ Text.largest)
    (hForm : form = .percent → afterValue = false) {source' : String}
    (hText' : source'.toList = front ++ (left ++ (numeral ++ (right ++ after)))) :
    (Likeness.moved source source').Sources source source' := by
  obtain ⟨c, cs, rfl, hPiece⟩ := h.piece
  have hEnds : ∀ d ∈ (right ++ after).head?, isNameChar d = false :=
    fun d hd => isNameChar_of_isBlank (hRight.head d hd)
  obtain ⟨d, ds, rfl, hPiece'⟩ := piece_of_numeral hNumeral hn hForm hEnds
  have hNewline : c ≠ '\n' := fun hc => h.inLine (hc ▸ List.mem_cons_self)
  have hSame : Replaces (c :: cs ++ after) (c :: cs ++ after) := .of_head
  have hFront : source.toList = front ++ c :: cs ++ after := by rw [h.text, List.append_assoc]
  have hFront' : source'.toList = front ++ left ++ d :: ds ++ right ++ after := by
    rw [hText', List.append_assoc, List.append_assoc, List.append_assoc]
  have hLines : (front ++ c :: cs).count '\n' = (front ++ left ++ d :: ds ++ right).count '\n' := by
    simp only [List.count_append, List.count_eq_zero.mpr h.inLine, hLeft.count_newline, hNumeral.count_newline,
      hRight.count_newline, Nat.add_zero]
  have hStart : newlinesBefore source (utf8Length front) = newlinesBefore source' (utf8Length (front ++ left)) := by
    rw [newlinesBefore_eq h.text, newlinesBefore_eq (hText'.trans (List.append_assoc _ _ _).symm), List.count_append,
      hLeft.count_newline, Nat.add_zero]
  have hScan : scanFrom (utf8Length source.toList) (utf8Length front) afterValue (c :: cs ++ after) =
      (scanFrom (utf8Length source.toList) (utf8Length (front ++ c :: cs)) true after).map
        (⟨.number (.ofNat n), ⟨utf8Length front, utf8Length (c :: cs)⟩⟩ :: ·) := by
    rw [Text.utf8Length_append]
    exact scanFrom_of_token hPiece rfl
  have hScan' (stop : Nat) : scanFrom stop (utf8Length front) afterValue (left ++ (d :: ds ++ (right ++ after))) =
      (scanFrom stop (utf8Length (front ++ left ++ d :: ds ++ right)) true after).map
        (⟨.number (.ofNat n), ⟨utf8Length (front ++ left), utf8Length (d :: ds)⟩⟩ :: ·) := by
    rw [hLeft.scanFrom_eq, ← Text.utf8Length_append, Text.utf8Length_append _ right, ← hRight.scanFrom_eq,
      Text.utf8Length_append _ (d :: ds)]
    exact scanFrom_of_token (hPiece' _ _) rfl
  exact sources_of_token h.reached h.text hSame (hLeft.replaces hNewline) h.text hText' hFront hFront' hLines hStart
    hScan (hScan' _)

/-- **Behind a value, `%` is the remainder operator**, whether or not a blank stands behind it. -/
theorem NumberAt.sources_of_percent (h : NumberAt source front literal after true v) (hLeft : Blanks left)
    {more : List Char} {source₁ source₂ : String} (hText₁ : source₁.toList = front ++ (left ++ '%' :: more))
    (hText₂ : source₂.toList = front ++ (left ++ '%' :: ' ' :: more)) :
    (Likeness.moved source₁ source₂).Sources source₁ source₂ := by
  obtain ⟨c, cs, rfl, -⟩ := h.piece
  have hNewline : c ≠ '\n' := fun hc => h.inLine (hc ▸ List.mem_cons_self)
  have hFront₁ : source₁.toList = front ++ left ++ ['%'] ++ more := by
    rw [hText₁, List.append_assoc, List.append_assoc, List.singleton_append]
  have hFront₂ : source₂.toList = front ++ left ++ ['%'] ++ [' '] ++ more := by
    rw [hText₂, List.append_assoc, List.append_assoc, List.append_assoc, List.singleton_append, List.singleton_append]
  have hLines : (front ++ left ++ ['%']).count '\n' = (front ++ left ++ ['%'] ++ [' ']).count '\n' := by
    simp only [List.count_append, Blanks.space.count_newline, Nat.add_zero]
  have hStart {source' : String} {more : List Char} (hText : source'.toList = front ++ (left ++ more)) :
      newlinesBefore source' (utf8Length (front ++ left)) = (front ++ left).count '\n' :=
    newlinesBefore_eq (hText.trans (List.append_assoc _ _ _).symm)
  have hScan (stop : Nat) (cs : List Char) : scanFrom stop (utf8Length front) true (left ++ '%' :: cs) =
      (scanFrom stop (utf8Length (front ++ left ++ ['%'])) false cs).map
        (⟨.mark .percent, ⟨utf8Length (front ++ left), utf8Length ['%']⟩⟩ :: ·) := by
    have hPiece : Token.piece stop (utf8Length (front ++ left)) true '%' cs =
        .ok ⟨some (.mark .percent), ['%'], cs⟩ := rfl
    rw [hLeft.scanFrom_eq, ← Text.utf8Length_append, Text.utf8Length_append _ ['%']]
    exact scanFrom_of_token hPiece rfl
  have hSpace (stop : Nat) : scanFrom stop (utf8Length (front ++ left ++ ['%'])) false (' ' :: more) =
      scanFrom stop (utf8Length (front ++ left ++ ['%'] ++ [' '])) false more := by
    rw [Text.utf8Length_append _ [' ']]
    exact Blanks.space.scanFrom_eq stop _ false more
  have hScan₂ := hScan (utf8Length source₂.toList) (' ' :: more)
  rw [hSpace] at hScan₂
  exact sources_of_token h.reached h.text (hLeft.replaces hNewline) (hLeft.replaces hNewline) hText₁ hText₂ hFront₁
    hFront₂ hLines ((hStart hText₁).trans (hStart hText₂).symm) (hScan _ _) hScan₂

end Token

-- --------
-- Assembling
-- --------

namespace Family

open CrossAsm.Token (Blanks Form Numeral NumberAt InTurn)

variable {Mnemonic Mode Feature : Type} [DecidableEq Mode] [Flag Mode] [Flag Feature]
  {F : Family Mnemonic Mode Feature} {source : String} {front literal after left right numeral : List Char}
  {afterValue : Bool} {form : Form} {n : Nat}

/-- **The form of a number does not matter** as long as it is read as a number: everywhere, but for `%` behind a token
that can end a value. There `%` is the remainder operator. The tokens of an expression are such that no number stands
behind the end of a value, and `%` only there or behind the program counter `*`. -/
theorem numeral_form_irrelevant (hF : F.Shipped) (machine : Machine Feature) (policy : Policy)
    (hNumber : NumberAt source front literal after afterValue (.ofNat n)) (hLeft : Blanks left) (hRight : Blanks right)
    (hNumeral : Numeral form n numeral) (hn : n ≤ Text.largest) :
    ((form = .percent → afterValue = false) →
      (F.assemble machine policy source).SameButPlaces
        (F.assemble machine policy (String.ofList (front ++ (left ++ (numeral ++ (right ++ after))))))) ∧
    (∀ bits, numeral = '%' :: bits → afterValue = true →
      (F.assemble machine policy (String.ofList (front ++ (left ++ ('%' :: bits ++ (right ++ after)))))).SameButPlaces
        (F.assemble machine policy (String.ofList (front ++ (left ++ ('%' :: ' ' :: bits ++ (right ++ after))))))) ∧
    ∀ scope least c e c', (Expr.parse scope least c).result = some (e, c') →
      ∃ tokens, c.rest = tokens ++ c'.rest ∧ tokens.IsChain InTurn := by
  have hSame {source₁ source₂ : String} (h : (Likeness.moved source₁ source₂).Sources source₁ source₂) :
      (F.assemble machine policy source₁).SameButPlaces (F.assemble machine policy source₂) :=
    (assemble_like (hF.respects _) trivial machine policy h).sameButPlaces trivial
  refine ⟨fun hForm => ?_, fun bits _ hValue => ?_, fun scope least c e c' h => ?_⟩
  · exact hSame (hNumber.sources hLeft hRight hNumeral hn hForm String.toList_ofList)
  · subst hValue
    exact hSame (hNumber.sources_of_percent hLeft String.toList_ofList String.toList_ofList)
  · obtain ⟨tokens, hTokens, hAlternating⟩ := Expr.alternating_of_parse h
    exact ⟨tokens, hTokens, hAlternating.inTurn⟩

set_option maxRecDepth 10000 in
/-- An immediate in binary. -/
theorem numeral_form_irrelevant_immediate :
    NumberAt "lda #5\n" ['l', 'd', 'a', ' ', '#'] ['5'] ['\n'] false (.ofNat 5) ∧
    Numeral .percent 5 ['%', '1', '0', '1'] ∧
    (Mos65.family.assemble ⟨{.base}, 0, true⟩ {} "lda #5\n").SameButPlaces
      (Mos65.family.assemble ⟨{.base}, 0, true⟩ {} "lda # %101 \n") := by
  have hText : "lda #5\n".toList = ['l', 'd', 'a', ' ', '#', '5', '\n'] := by decide +kernel
  have hStart : Token.Reaches "lda #5\n" 0 false ['l', 'd', 'a', ' ', '#', '5', '\n'] := hText ▸ .start
  have hName : Token.Reaches "lda #5\n" 3 true [' ', '#', '5', '\n'] :=
    @Token.Reaches.token _ _ _ _ _ ⟨some (.identifier "lda"), ['l', 'd', 'a'], _⟩ _ hStart rfl rfl
  have hBlank : Token.Reaches "lda #5\n" 4 true ['#', '5', '\n'] :=
    @Token.Reaches.blank _ _ _ _ _ ⟨none, [' '], _⟩ hName rfl rfl
  have hHash : Token.Reaches "lda #5\n" 5 false ['5', '\n'] :=
    @Token.Reaches.token _ _ _ _ _ ⟨some (.mark .hash), ['#'], _⟩ _ hBlank rfl rfl
  have hNumber : NumberAt "lda #5\n" ['l', 'd', 'a', ' ', '#'] ['5'] ['\n'] false (.ofNat 5) :=
    ⟨hText, hHash, ⟨'5', [], rfl, rfl⟩, by decide⟩
  have hDigits : Text.Digits 2 5 ['1', '0', '1'] :=
    @Text.Digits.more 2 2 1 ['1', '0'] '1' (@Text.Digits.more 2 1 0 ['1'] '0' (.one ⟨by decide, by decide⟩)
      ⟨by decide, by decide⟩) ⟨by decide, by decide⟩
  have hNumeral : Numeral .percent 5 ['%', '1', '0', '1'] := .percent hDigits
  refine ⟨hNumber, hNumeral, ?_⟩
  exact (numeral_form_irrelevant .mos65 ⟨{.base}, 0, true⟩ {} hNumber .space .space hNumeral (by decide)).1 fun _ => rfl

set_option maxRecDepth 10000 in
/-- Behind the name of a directive `%` starts no number, and behind the program counter it is no operator. -/
theorem percent_taken_for_the_other :
    (Mos65.family.assemble ⟨{.base}, 0, true⟩ {} ".byte 5\n").result.toOption.isSome = true ∧
    (Mos65.family.assemble ⟨{.base}, 0, true⟩ {} ".byte  %101 \n").result.toOption.isSome = false ∧
    (Mos65.family.assemble ⟨{.base}, 0, true⟩ {} ".org 37\n.byte * % 10\n").result.toOption.isSome = true ∧
    (Mos65.family.assemble ⟨{.base}, 0, true⟩ {} ".org 37\n.byte * %10\n").result.toOption.isSome = false := by
  decide +kernel

end Family

end CrossAsm
