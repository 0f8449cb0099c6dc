import CrossAsm.Proofs.Numeral
import CrossAsm.Proofs.Token.Coverage

/-!
# CrossAsm — the spacing of a source does not matter

A source can be laid out anew: the words of its tokens in order, each behind a single blank, and no comments. What it
says stays the same.

* `Token.Respaced` — the layouts of a list of tokens; next to a newline a blank is not needed.
* `Token.scanFrom_respaced` — from every place of the scan on, the words are read to the same lexemes.
* `Token.lexemes_respaced` — so a source and its new layout have the same lexemes.
-/

namespace CrossAsm.Token

open CrossAsm.Text (utf8Length slice?)

variable {source : String} {tokens : List Token} {text rest : List Char} {pos : Nat} {afterValue : Bool} {c : Char}
  {cs : List Char} {p : Piece}

/-- The characters of a token in its source. -/
def wordIn (source : String) (t : Token) : List Char := (slice? source.toList t.span.start t.span.stop).getD []

/-- The text has the words of the tokens in order. A single blank stands between two words, except that it can be
left out next to a newline. -/
inductive Respaced (source : String) : List Token → List Char → Prop
  | nil : Respaced source [] []
  | last (t : Token) : Respaced source [t] (t.wordIn source)
  | blank {t u : Token} {others : List Token} {text : List Char} (h : Respaced source (u :: others) text) :
      Respaced source (t :: u :: others) (t.wordIn source ++ ' ' :: text)
  | line {t u : Token} {others : List Token} {text : List Char} (hLine : t.lexeme = .newline ∨ u.lexeme = .newline)
      (h : Respaced source (u :: others) text) : Respaced source (t :: u :: others) (t.wordIn source ++ text)

/-- All tokens can be laid out anew. -/
theorem exists_respaced (source : String) (tokens : List Token) : ∃ text, Respaced source tokens text := by
  induction tokens with
  | nil => exact ⟨[], .nil⟩
  | cons t others ih =>
    cases others with
    | nil => exact ⟨_, .last t⟩
    | cons u others =>
      obtain ⟨text, hText⟩ := ih
      exact ⟨_, .blank hText⟩

/-- A layout starts with the first word. -/
theorem Respaced.exists_append {t : Token} {others : List Token} (h : Respaced source (t :: others) text) :
    ∃ more, text = t.wordIn source ++ more := by
  cases h with
  | last => exact ⟨[], (List.append_nil _).symm⟩
  | blank h => exact ⟨_, rfl⟩
  | line hLine h => exact ⟨_, rfl⟩

theorem wordIn_of_scan {t : Token} (h : scan source = .ok tokens) (ht : t ∈ tokens) :
    slice? source.toList t.span.start t.span.stop = some (t.wordIn source) := by
  obtain ⟨afterValue, c, cs, p, hReaches, hPiece, -, hStop⟩ := (cutsCleanly source).reads tokens h t ht
  have hSlice := (cutsCleanly source).piece t.span.start afterValue c cs p hReaches hPiece
  rw [wordIn, hStop, hSlice]
  rfl

/-- A newline is a token of its own, whatever comes behind it. -/
theorem piece_newline {stop : Nat} (h : piece stop pos afterValue c cs = .ok p) (hLexeme : p.lexeme = some .newline)
    (stop' pos' : Nat) (rest : List Char) :
    piece stop' pos' afterValue c (p.taken.tail ++ rest) = .ok { p with rest := rest } := by
  have hWord := spelling_piece h hLexeme rfl
  obtain ⟨ts, hTaken, -⟩ := piece_split h
  obtain ⟨rfl, rfl⟩ := List.cons.inj (hWord.trans hTaken)
  obtain ⟨lexeme, taken, rest'⟩ := p
  cases hLexeme
  cases hTaken
  rfl

/-- No token goes on with a blank, and a text that has more tokens goes on. -/
theorem follows_blank {stop : Nat} {t : Token} {others : List Token} {d : Char} (hd : Text.isBlank d = true)
    (h : scanFrom stop pos afterValue rest = .ok (t :: others)) (more : List Char) : Follows rest (d :: more) := by
  cases rest with
  | nil =>
    rw [scanFrom] at h
    cases h
  | cons c cs =>
    intro e he
    obtain rfl := Option.some.inj he
    exact ⟨c, rfl, noLongerToken_blank c hd⟩

/-- A token that is read again comes before the lexemes behind it. -/
theorem scanFrom_again {stop : Nat} {l : Lexeme} {lexemes : List Lexeme} {ts : List Char} (hTaken : p.taken = c :: ts)
    (hLexeme : p.lexeme = some l)
    (hPiece : piece stop pos afterValue c (p.taken.tail ++ rest) = .ok { p with rest := rest })
    (hRest : ∃ tokens, scanFrom stop (pos + utf8Length p.taken) l.endsValue rest = .ok tokens ∧
      tokens.map (·.lexeme) = lexemes) :
    ∃ tokens, scanFrom stop pos afterValue (p.taken ++ rest) = .ok tokens ∧
      tokens.map (·.lexeme) = l :: lexemes := by
  obtain ⟨tokens, hScan, rfl⟩ := hRest
  have hCons : p.taken ++ rest = c :: (p.taken.tail ++ rest) := by
    rw [hTaken, List.cons_append, List.tail_cons]
  rw [hCons, scanFrom_of_token hPiece hLexeme]
  exact ⟨_, congrArg (Except.map _) hScan, rfl⟩

/-- **From every place of the scan on**, the words of the tokens are read to the same lexemes. -/
theorem scanFrom_respaced (hReaches : Reaches source pos afterValue cs)
    (h : scanFrom (utf8Length source.toList) pos afterValue cs = .ok tokens)
    (hLines : ∀ t ∈ tokens, t.lexeme = .newline → t.wordIn source = ['\n']) (hText : Respaced source tokens text)
    (stop' pos' : Nat) :
    ∃ tokens', scanFrom stop' pos' afterValue text = .ok tokens' ∧ tokens'.map (·.lexeme) = tokens.map (·.lexeme) := by
  fun_induction scanFrom (utf8Length source.toList) pos afterValue cs generalizing tokens text pos' with
  | case1 =>
    cases h
    cases hText
    exact ⟨[], by rw [scanFrom], rfl⟩
  | case2 => cases h
  | case3 pos afterValue c cs p hPiece size hNone =>
    rename_i ih
    exact ih (hReaches.blank hPiece hNone) h hLines hText pos'
  | case4 => cases h
  | case5 pos afterValue c cs p hPiece size l hLexeme others hOthers =>
    rename_i ih
    cases h
    have hNext {text : List Char} (hText : Respaced source others text) (pos' : Nat) :=
      ih (hReaches.token hPiece hLexeme) hOthers (fun t ht => hLines t (List.mem_cons_of_mem _ ht)) hText pos'
    have hWord : wordIn source ⟨l, ⟨pos, size⟩⟩ = p.taken := by
      have hSlice := (cutsCleanly source).piece pos afterValue c cs p hReaches hPiece
      exact congrArg (·.getD []) hSlice
    obtain ⟨ts, hTaken, -⟩ := piece_split hPiece
    have hToken {rest : List Char} (hFollows : Follows p.rest rest) :
        piece stop' pos' afterValue c (p.taken.tail ++ rest) = .ok { p with rest := rest } :=
      piece_replace hPiece hFollows (fun hNone => absurd (hLexeme.symm.trans hNone) (Option.some_ne_none l)) stop' pos'
    cases hText with
    | last =>
      have hNothing : Follows p.rest [] := fun d hd => absurd hd (Option.not_mem_none d)
      have hEnd := scanFrom_again hTaken hLexeme (hToken hNothing) (hNext .nil _)
      rwa [List.append_nil, ← hWord] at hEnd
    | @blank _ u others text hText =>
      rw [hWord]
      refine scanFrom_again hTaken hLexeme (hToken (follows_blank (by decide) hOthers text)) ?_
      have hBlank := Blanks.space.scanFrom_eq stop' (pos' + size) l.endsValue text
      rw [List.singleton_append] at hBlank
      rw [hBlank]
      exact hNext hText _
    | @line _ u others text hLine hText =>
      rw [hWord]
      refine scanFrom_again hTaken hLexeme ?_ (hNext hText _)
      rcases hLine with hLine | hLine
      · cases hLine
        exact piece_newline hPiece hLexeme stop' pos' text
      · obtain ⟨more, hMore⟩ := hText.exists_append
        rw [hLines u (List.mem_cons_of_mem _ List.mem_cons_self) hLine, List.singleton_append] at hMore
        rw [hMore]
        exact hToken (follows_blank (by decide) hOthers more)

/-- **The spacing and the comments of a source do not matter.** The words of its tokens, laid out anew with single
blanks between them and without the comments, are accepted and have the same lexemes. -/
theorem lexemes_respaced (h : scan source = .ok tokens) :
    (∀ t ∈ tokens, slice? source.toList t.span.start t.span.stop = some (t.wordIn source)) ∧
      (∃ text, Respaced source tokens text) ∧
      ∀ text, Respaced source tokens text → ∃ tokens', scan (String.ofList text) = .ok tokens' ∧
        tokens'.map (·.lexeme) = tokens.map (·.lexeme) := by
  refine ⟨fun t ht => wordIn_of_scan h ht, exists_respaced source tokens, fun text hText => ?_⟩
  have hLines : ∀ t ∈ tokens, t.lexeme = .newline → t.wordIn source = ['\n'] := by
    intro t ht hLine
    have hSpelled := spelled_of_scan h ht (congrArg Lexeme.spelling? hLine)
    exact Option.some.inj ((wordIn_of_scan h ht).symm.trans hSpelled)
  rw [scan, String.toList_ofList]
  exact scanFrom_respaced .start h hLines hText _ 0

set_option maxRecDepth 10000 in
/-- A remainder and a binary number, a name with an apostrophe, and a comment that ends in front of a newline. -/
theorem lexemes_respaced_percent :
    let source := "a%%1;b\n\taf'<<\"; \""
    let tokens : List Token := [⟨.identifier "a", ⟨0, 1⟩⟩, ⟨.mark .percent, ⟨1, 1⟩⟩, ⟨.number 1, ⟨2, 2⟩⟩,
      ⟨.newline, ⟨6, 1⟩⟩, ⟨.identifier "af'", ⟨8, 3⟩⟩, ⟨.mark .doubleLess, ⟨11, 2⟩⟩, ⟨.text "; ", ⟨13, 4⟩⟩]
    scan source = .ok tokens ∧ Respaced source tokens "a % %1 \naf' << \"; \"".toList ∧
      ∃ tokens', scan "a % %1 \naf' << \"; \"" = .ok tokens' ∧ tokens'.map (·.lexeme) = tokens.map (·.lexeme) := by
  intro source tokens
  have hScan : scan source = .ok tokens := by decide +kernel
  have hLayout : Respaced source tokens _ := .blank (.blank (.blank (.line (.inl rfl) (.blank (.blank (.last _))))))
  have hText : Respaced source tokens "a % %1 \naf' << \"; \"".toList :=
    Eq.mp (congrArg (Respaced source tokens) (by decide +kernel)) hLayout
  have hRead := (lexemes_respaced hScan).2.2 _ hText
  rw [String.ofList_toList] at hRead
  exact ⟨hScan, hText, hRead⟩

end CrossAsm.Token
