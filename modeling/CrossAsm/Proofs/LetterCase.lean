import CrossAsm.Proofs.Assembly.Outcome
import CrossAsm.Proofs.Letter
import CrossAsm.Proofs.Token.Lookahead

/-!
# CrossAsm — the letter case of names

Mnemonics, registers, directives and all other keywords are recognised in any letter case, while symbols are told
apart by it. So a source in which no two names differ by letter case alone means the same in upper case.

* `Token.upperNames` — a source with all its names in upper case.
* `Token.scan_upperNames` — its tokens are those of the source with their names in upper case.
* `Likeness.upperCase` — the correspondence between names and their upper case.
* `Family.upper_case_assembles_alike` — so the two sources are assembled alike.
-/

namespace CrossAsm

/-- The name in upper case, if the lexeme is one. -/
def Lexeme.upper : Lexeme → Lexeme
  | .identifier name => .identifier (Text.upper name)
  | l => l

theorem Lexeme.endsValue_upper (l : Lexeme) : l.upper.endsValue = l.endsValue := by
  cases l <;> rfl

namespace Token

theorem isNameChar_toUpper (c : Char) : isNameChar c.toUpper = isNameChar c :=
  Text.of_toUpper (P := fun c d => isNameChar d = isNameChar c) (fun _ => rfl) (by decide) c

theorem isNameStart_toUpper (c : Char) : (c.toUpper.isAlpha || c.toUpper == '_') = (c.isAlpha || c == '_') :=
  Text.of_toUpper (P := fun c d => (d.isAlpha || d == '_') = (c.isAlpha || c == '_')) (fun _ => rfl) (by decide) c

/-- A text goes on with a letter as it does with its capital. -/
theorem noLonger_toUpper (c : Char) : NoLonger c c.toUpper where
  name h := isNameChar_toUpper c ▸ h
  digit radix h := by rwa [Text.isDigitIn, Text.digitOf?_toUpper] at h
  quote := Text.of_toUpper (P := fun c d => d = apostrophe → c = apostrophe) (fun _ => id) (by decide) c
  less := Text.of_toUpper (P := fun c d => d = '<' → c = '<') (fun _ => id) (by decide) c
  greater := Text.of_toUpper (P := fun c d => d = '>' → c = '>') (fun _ => id) (by decide) c
  comment h := fun hNewline => h ((Text.toUpper_eq_newline_iff c).mpr hNewline)

-- --------
-- Sources with their names in upper case
-- --------

open CrossAsm.Text (utf8Length)

/-- The characters of the piece, in upper case if it is a name. -/
def Piece.upper (p : Piece) : List Char :=
  match p.lexeme with
  | some (.identifier _) => p.taken.map Char.toUpper
  | _ => p.taken

/-- The characters from byte `pos` on with all names in upper case. From the first character that is in no token on,
they stay as they are. -/
def upperFrom (stop pos : Nat) (afterValue : Bool) (cs : List Char) : List Char :=
  match cs with
  | [] => []
  | c :: cs =>
    match _h : piece stop pos afterValue c cs with
    | .error _ => c :: cs
    | .ok p =>
      p.upper ++ upperFrom stop (pos + utf8Length p.taken) (p.lexeme.elim afterValue Lexeme.endsValue) p.rest
termination_by cs.length
decreasing_by exact piece_rest_lt _h

/-- The source with all its names in upper case. -/
def upperNames (source : String) : String :=
  String.ofList (upperFrom (utf8Length source.toList) 0 false source.toList)

/-- The token with its name in upper case. -/
def upper (t : Token) : Token := { t with lexeme := t.lexeme.upper }

variable {stop pos : Nat} {afterValue : Bool} {c : Char} {cs rest' : List Char} {p : Piece}

/-- The two texts differ in letter case only. -/
theorem upperFrom_forall₂ (stop pos : Nat) (afterValue : Bool) (cs : List Char) :
    List.Forall₂ (fun c d => d = c ∨ d = c.toUpper) cs (upperFrom stop pos afterValue cs) := by
  have hSame (cs : List Char) : List.Forall₂ (fun c d => d = c ∨ d = c.toUpper) cs cs :=
    List.forall₂_same.mpr fun _ _ => .inl rfl
  fun_induction upperFrom stop pos afterValue cs with
  | case1 => exact .nil
  | case2 => exact hSame _
  | case3 pos afterValue c cs p hPiece ih =>
    obtain ⟨ts, hTaken, hRest⟩ := piece_split hPiece
    have hText : c :: cs = p.taken ++ p.rest := by rw [hTaken, List.cons_append, hRest]
    rw [hText]
    refine List.rel_append ?_ ih
    unfold Piece.upper
    split
    · exact List.forall₂_map_right_iff.mpr (List.forall₂_same.mpr fun _ _ => .inr rfl)
    · exact hSame _

theorem replaces_upperFrom (stop pos : Nat) (afterValue : Bool) (cs : List Char) :
    Replaces cs (upperFrom stop pos afterValue cs) := by
  intro d hd
  have hTexts := upperFrom_forall₂ stop pos afterValue cs
  generalize upperFrom stop pos afterValue cs = ds at hTexts hd
  cases hTexts with
  | nil => cases hd
  | @cons c d' _ _ hChar _ =>
    obtain rfl := Option.some.inj hd
    refine ⟨c, rfl, ?_⟩
    rcases hChar with rfl | rfl
    · exact .refl _
    · exact noLonger_toUpper c

/-- A name in upper case is read to the name in upper case. -/
theorem namePiece_upper (h : Follows (namePiece c cs).rest rest') :
    namePiece c.toUpper (((namePiece c cs).taken.map Char.toUpper).tail ++ rest') =
      ⟨(namePiece c cs).lexeme.map Lexeme.upper, (namePiece c cs).taken.map Char.toUpper, rest'⟩ := by
  have hUpper {word : List Char} (hWord : ∀ d ∈ word, isNameChar d = true) :
      ∀ d ∈ word.map Char.toUpper, isNameChar d = true := by
    intro d hd
    obtain ⟨e, he, rfl⟩ := List.mem_map.mp hd
    rw [isNameChar_toUpper, hWord e he]
  have hSame (word : List Char) : Text.sameWord (String.ofList (c.toUpper :: word.map Char.toUpper)) "af" =
      Text.sameWord (String.ofList (c :: word)) "af" := by
    rw [← List.map_cons, ← Text.upper_ofList, Text.sameWord, Text.lower_upper, Text.sameWord]
  rcases namePiece_cases c cs with ⟨word, rest, hWord, hEnds, hPlain, rfl⟩ | ⟨word, rest, hWord, hPair, rfl⟩
  · rw [namePiece_of_word hWord hEnds hPlain] at h ⊢
    dsimp only [Option.map_some, Lexeme.upper]
    rw [Text.upper_ofList, List.map_cons, List.tail_cons]
    exact namePiece_of_word (hUpper hWord) (ends_of_head (fun _ _ hNoLonger => hNoLonger.name) h hEnds) fun hQuote =>
      (hSame word).trans (hPlain (h.quote hQuote))
  · have hQuote : apostrophe.toUpper = apostrophe := by decide
    rw [namePiece_of_quote hWord hPair]
    dsimp only [Option.map_some, Lexeme.upper]
    rw [Text.upper_ofList, List.cons_append, List.map_cons, List.map_append, List.map_singleton, hQuote, List.tail_cons,
      List.append_assoc]
    exact namePiece_of_quote (hUpper hWord) (by rw [hSame, hPair])

/-- A piece is read to the same lexeme in upper case. -/
theorem piece_upper (h : piece stop pos afterValue c cs = .ok p) (hRest : Replaces p.rest rest') :
    ∃ d ds, p.upper = d :: ds ∧
      piece stop pos afterValue d (ds ++ rest') = .ok ⟨p.lexeme.map Lexeme.upper, p.upper, rest'⟩ := by
  obtain ⟨ts, hTaken, -⟩ := piece_split h
  unfold Piece.upper
  split
  · next name hLexeme =>
    obtain ⟨hStart, rfl⟩ := namePiece_of_piece h hLexeme
    refine ⟨c.toUpper, ts.map Char.toUpper, by rw [hTaken, List.map_cons], ?_⟩
    have hPiece := namePiece_upper hRest.follows
    rw [hTaken, List.map_cons, List.tail_cons] at hPiece
    rw [piece_of_nameStart (by rw [isNameStart_toUpper, hStart]), hPiece, hTaken, List.map_cons]
  · next hOther =>
    have hSame : p.lexeme.map Lexeme.upper = p.lexeme := by
      cases hLexeme : p.lexeme with
      | none => rfl
      | some l =>
        cases l with
        | identifier name => exact absurd hLexeme (hOther name)
        | _ => rfl
    have hPiece := piece_replace h hRest.follows (fun _ => hRest) stop pos
    rw [hTaken, List.tail_cons] at hPiece
    exact ⟨c, ts, hTaken, by rw [hPiece, hSame, hTaken]⟩

/-- Letters and their capitals take as many bytes. -/
theorem utf8Length_of_forall₂ {cs ds : List Char} (h : List.Forall₂ (fun c d => d = c ∨ d = c.toUpper) cs ds) :
    utf8Length ds = utf8Length cs := by
  induction h with
  | nil => rfl
  | cons hChar _ ih =>
    rw [utf8Length, utf8Length, ih]
    rcases hChar with rfl | rfl
    · rfl
    · rw [Text.utf8Size_toUpper]

theorem utf8Length_upper (p : Piece) : utf8Length p.upper = utf8Length p.taken := by
  refine utf8Length_of_forall₂ ?_
  unfold Piece.upper
  split
  · exact List.forall₂_map_right_iff.mpr (List.forall₂_same.mpr fun _ _ => .inr rfl)
  · exact List.forall₂_same.mpr fun _ _ => .inl rfl

theorem scanFrom_upperFrom (stop pos : Nat) (afterValue : Bool) (cs : List Char) :
    scanFrom stop pos afterValue (upperFrom stop pos afterValue cs) =
      (scanFrom stop pos afterValue cs).map (List.map upper) := by
  fun_induction upperFrom stop pos afterValue cs with
  | case1 => rw [scanFrom]; rfl
  | case2 pos afterValue c cs d hPiece => rw [scanFrom_of_error hPiece]; rfl
  | case3 pos afterValue c cs p hPiece ih =>
    obtain ⟨d, ds, hUpper, hPiece'⟩ := piece_upper hPiece (replaces_upperFrom stop (pos + utf8Length p.taken)
      (p.lexeme.elim afterValue Lexeme.endsValue) p.rest)
    have hSize := utf8Length_upper p
    cases hLexeme : p.lexeme with
    | none =>
      rw [hLexeme] at ih hPiece'
      rw [hUpper, List.cons_append, scanFrom_of_blank hPiece' rfl, scanFrom_of_blank hPiece hLexeme]
      dsimp only
      rw [hSize]
      exact ih
    | some l =>
      rw [hLexeme] at ih hPiece'
      rw [hUpper, List.cons_append, scanFrom_of_token hPiece' rfl, scanFrom_of_token hPiece hLexeme]
      dsimp only [Option.elim_some] at ih ⊢
      rw [hSize, Lexeme.endsValue_upper, ih]
      cases scanFrom stop (pos + utf8Length p.taken) l.endsValue p.rest with
      | error d => rfl
      | ok tokens => rfl

theorem utf8Length_upperNames (source : String) : utf8Length (upperNames source).toList = utf8Length source.toList := by
  rw [upperNames, String.toList_ofList]
  exact utf8Length_of_forall₂ (upperFrom_forall₂ ..)

/-- **The tokens of a source with its names in upper case** are the tokens of the source, at the same places, with
their names in upper case. -/
theorem scan_upperNames (source : String) : scan (upperNames source) = (scan source).map (List.map upper) := by
  rw [scan, scanChars, utf8Length_upperNames, upperNames, String.toList_ofList]
  exact scanFrom_upperFrom ..

end Token

/-- Newlines stay where they are. -/
theorem newlineOffsets_of_forall₂ {cs ds : List Char} (h : List.Forall₂ (fun c d => d = c ∨ d = c.toUpper) cs ds)
    (offset : Nat) : newlineOffsets offset ds = newlineOffsets offset cs := by
  induction h generalizing offset with
  | nil => rfl
  | cons hChar _ ih =>
    rcases hChar with rfl | rfl
    · rw [newlineOffsets, newlineOffsets, ih]
    · simp only [newlineOffsets, ih, Text.utf8Size_toUpper, Text.toUpper_eq_newline_iff]

-- --------
-- Names and their upper case
-- --------

/-- The names in a source. -/
def Token.names (source : String) : List String :=
  match scan source with
  | .ok tokens => tokens.filterMap (·.lexeme.name?)
  | .error _ => []

/-- Names that start as names do, and of which no two differ by letter case alone. -/
structure Text.Distinct (names : List String) : Prop where
  first    : ∀ name ∈ names, ∃ c ∈ name.toList.head?, Token.isNameChar c = true
  distinct : ∀ a ∈ names, ∀ b ∈ names, sameWord a b = true → a = b

theorem Text.first_upper {name : String} (h : ∃ c ∈ name.toList.head?, Token.isNameChar c = true) :
    ∃ c ∈ (upper name).toList.head?, Token.isNameChar c = true := by
  obtain ⟨c, hc, hName⟩ := h
  refine ⟨c.toUpper, ?_, by rw [Token.isNameChar_toUpper, hName]⟩
  rw [upper, String.toList_map, List.head?_map, Option.mem_def.mp hc]
  rfl

/-- Names correspond to their upper case, and what is no name to itself. -/
inductive Text.Recased (names : List String) : String → String → Prop
  | name {a : String} (ha : a ∈ names) : Recased names a (upper a)
  | other {a : String} (ha : ∀ c ∈ a.toList.head?, Token.isNameChar c = false) : Recased names a a

namespace Text.Recased

variable {names : List String} {a b a' b' : String}

theorem lower_eq (h : Recased names a b) : lower a = lower b := by
  cases h with
  | name => exact (lower_upper a).symm
  | other => rfl

theorem eq_iff (hNames : Distinct names) (h : Recased names a b) (h' : Recased names a' b') : a = a' ↔ b = b' := by
  have hApart {s t : String} (hs : ∃ c ∈ s.toList.head?, Token.isNameChar c = true)
      (ht : ∀ c ∈ t.toList.head?, Token.isNameChar c = false) : s ≠ t := by
    rintro rfl
    obtain ⟨c, hc, hName⟩ := hs
    rw [ht c hc] at hName
    cases hName
  cases h with
  | name ha =>
    have hFirst := hNames.first a ha
    cases h' with
    | name ha' =>
      refine ⟨congrArg upper, fun hUpper => hNames.distinct a ha a' ha' ?_⟩
      rw [sameWord, ← lower_upper a, ← lower_upper a', hUpper, beq_self_eq_true]
    | other ha' => exact iff_of_false (hApart hFirst ha') (hApart (first_upper hFirst) ha')
  | other ha =>
    cases h' with
    | name ha' =>
      have hFirst := hNames.first a' ha'
      exact iff_of_false (hApart hFirst ha).symm (hApart (first_upper hFirst) ha).symm
    | other => exact .rfl

end Text.Recased

/-- Names correspond to their upper case, at the same places. -/
def Likeness.upperCase {names : List String} (hNames : Text.Distinct names) : Likeness where
  names := Text.Recased names
  spans := Eq
  starts := Eq
  verbatim := False
  relocatable := True
  defines := True
  lower_eq := Text.Recased.lower_eq
  eq_iff := Text.Recased.eq_iff hNames
  eq_of_verbatim h _ _ _ := h.elim
  self _ _ h := .other h
  zero := rfl
  hull := @Span.hull_congr
  through := @Span.through_congr

theorem Token.distinct_names {source : String}
    (h : ∀ a ∈ names source, ∀ b ∈ names source, Text.sameWord a b = true → a = b) : Text.Distinct (names source) := by
  refine ⟨fun name hName => ?_, h⟩
  unfold names at hName
  split at hName
  · next tokens hScan =>
    obtain ⟨t, ht, hLexeme⟩ := List.mem_filterMap.mp hName
    obtain ⟨front, word, rest, -, -, hSpells⟩ := (spread_scan hScan).before ht
    have hIdentifier : t.lexeme = .identifier name := by
      cases hKind : t.lexeme with
      | identifier name' =>
        rw [hKind] at hLexeme
        rw [Option.some.inj hLexeme]
      | _ =>
        rw [hKind] at hLexeme
        cases hLexeme
    rw [(hSpells.name name hIdentifier).1]
    obtain ⟨c, cs, rfl⟩ := List.exists_cons_of_ne_nil hSpells.ne_nil
    exact ⟨c, rfl, hSpells.first name hIdentifier c rfl⟩
  · cases hName

theorem sources_upperNames {source : String} (hNames : Text.Distinct (Token.names source)) :
    (Likeness.upperCase hNames).Sources source (Token.upperNames source) := by
  have hSize : (Token.upperNames source).utf8ByteSize = source.utf8ByteSize := by
    rw [← Token.utf8Length_toList, Token.utf8Length_upperNames, Token.utf8Length_toList]
  refine ⟨?_, ⟨.same rfl, ?_, ?_⟩, trivial, ?_⟩
  · rw [Token.scan_upperNames]
    cases hScan : Token.scan source with
    | error d => exact .error ⟨rfl, List.forall₂_same.mpr fun _ _ => rfl, False.elim, .inr trivial⟩
    | ok tokens =>
      refine .ok (List.forall₂_map_right_iff.mpr (List.forall₂_same.mpr fun t ht => ⟨?_, rfl, rfl⟩))
      unfold Token.upper
      cases hLexeme : t.lexeme with
      | identifier name =>
        refine .identifier (.name ?_)
        unfold Token.names
        rw [hScan]
        exact List.mem_filterMap.mpr ⟨t, ht, by rw [hLexeme]; rfl⟩
      | _ => exact .same rfl
  · rw [hSize]
    rfl
  · rw [hSize]
    rfl
  · rintro a b rfl
    rw [Token.upperNames, String.toList_ofList, newlineOffsets_of_forall₂ (Token.upperFrom_forall₂ ..)]

namespace Family

variable {Mnemonic Mode Feature : Type} [DecidableEq Mode] [Flag Mode] [Flag Feature]
  {F : Family Mnemonic Mode Feature}

/-- **Keywords are case-insensitive.** If no two names of a source differ by letter case alone, the source with all
its names in upper case is assembled to a program with the same blocks and the same image at every base and with the
same listing, or it fails as the source does. All errors and all that is reported have the same codes at the same
places. -/
theorem upper_case_assembles_alike (hF : F.Shipped) (machine : Machine Feature) (policy : Policy) (source : String)
    (hNames : ∀ a ∈ Token.names source, ∀ b ∈ Token.names source, Text.sameWord a b = true → a = b) :
    (F.assemble machine policy source).SameButNames (F.assemble machine policy (Token.upperNames source)) := by
  have hDistinct := Token.distinct_names hNames
  have hRun := assemble_like (hF.respects (.upperCase hDistinct)) trivial machine policy (sources_upperNames hDistinct)
  exact hRun.sameButNames fun _ _ => id

set_option maxRecDepth 10000 in
/-- A shadow register, a condition and a label, in any letter case. -/
theorem upper_case_assembles_alike_shadow :
    Token.upperNames "Loop: ex AF,af' ; Swap\njr nZ,Loop\n" = "LOOP: EX AF,AF' ; Swap\nJR NZ,LOOP\n" ∧
    (Z80.family.assemble ⟨{.z80}, 0, true⟩ {} "Loop: ex AF,af' ; Swap\njr nZ,Loop\n").SameButNames
      (Z80.family.assemble ⟨{.z80}, 0, true⟩ {} "LOOP: EX AF,AF' ; Swap\nJR NZ,LOOP\n") := by
  have hUpper : Token.upperNames "Loop: ex AF,af' ; Swap\njr nZ,Loop\n" = "LOOP: EX AF,AF' ; Swap\nJR NZ,LOOP\n" := by
    decide +kernel
  have hSame := upper_case_assembles_alike .z80 ⟨{.z80}, 0, true⟩ {} "Loop: ex AF,af' ; Swap\njr nZ,Loop\n"
    (by decide +kernel)
  rw [hUpper] at hSame
  exact ⟨hUpper, hSame⟩

end Family

end CrossAsm
