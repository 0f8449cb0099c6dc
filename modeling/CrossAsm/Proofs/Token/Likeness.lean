import CrossAsm.Proofs.Reading.Likeness
import CrossAsm.Proofs.Token.Lookahead

/-!
# CrossAsm — tokens of a text that is moved

Where a text stands in a source counts only for the places of its tokens and of what is wrong with it.

* `Token.piece_like` — a piece is the same wherever it stands.
* `Token.scanFrom_like` — so a text has corresponding tokens wherever it stands.
-/

namespace CrossAsm

/-- Results that are made of corresponding ones. -/
theorem Alike.map {ε ε' α β γ δ : Type} {E : ε → ε' → Prop} {A : α → β → Prop} {C : γ → δ → Prop} {r : Except ε α}
    {r' : Except ε' β} {f : α → γ} {g : β → δ} (h : Alike E A r r') (hf : ∀ a b, A a b → C (f a) (g b)) :
    Alike E C (r.map f) (r'.map g) := by
  cases h with
  | ok h => exact .ok (hf _ _ h)
  | error h => exact .error h

/-- The same choice between corresponding results. -/
theorem Alike.ite {ε ε' α β : Type} {E : ε → ε' → Prop} {A : α → β → Prop} {condition : Prop} [Decidable condition]
    {r s : Except ε α} {r' s' : Except ε' β} (hr : Alike E A r r') (hs : Alike E A s s') :
    Alike E A (if condition then r else s) (if condition then r' else s') := by
  split
  · exact hr
  · exact hs

namespace Token

open CrossAsm.Text (utf8Length)

variable {L : Likeness} (hSpans : ∀ s t, L.spans s t) {start stop pos start' stop' pos' : Nat}

include hSpans

theorem stringBody_like (cs : List Char) :
    L.Results Eq (stringBody start stop pos cs) (stringBody start' stop' pos' cs) := by
  fun_induction stringBody start stop pos cs generalizing pos' with
  | case1 => exact .error (.of_place (hSpans _ _) rfl rfl rfl fun _ => rfl)
  | case2 =>
    rw [stringBody.eq_def]
    exact .ok rfl
  | case3 =>
    rw [stringBody, if_neg (by decide), if_pos rfl]
    exact .error (.of_place (hSpans _ _) rfl rfl rfl fun _ => rfl)
  | case4 pos e es hNone =>
    rw [stringBody, if_neg (by decide), if_pos rfl, hNone]
    exact .error (.of_place (hSpans _ _) rfl rfl rfl fun _ => rfl)
  | case5 pos e es x hEscaped d _ hRec ih =>
    rw [stringBody, if_neg (by decide), if_pos rfl, hEscaped]
    rw [hRec] at ih
    rcases ih.cases with ⟨_, _, hOk, -⟩ | ⟨_, d', hBad, hBad', hd⟩
    · cases hOk
    · cases hBad
      rw [hBad']
      exact .error hd
  | case6 pos e es x hEscaped content taken rest _ hRec ih =>
    rw [stringBody, if_neg (by decide), if_pos rfl, hEscaped]
    rw [hRec] at ih
    rcases ih.cases with ⟨_, _, hOk, hOk', rfl⟩ | ⟨_, _, hBad, -⟩
    · cases hOk
      rw [hOk']
      exact .ok rfl
    · cases hBad
  | case7 pos c cs hQuote hSlash d hRec ih =>
    rw [stringBody.eq_def]
    dsimp only
    rw [if_neg hQuote, if_neg hSlash]
    rw [hRec] at ih
    rcases ih.cases with ⟨_, _, hOk, -⟩ | ⟨_, d', hBad, hBad', hd⟩
    · cases hOk
    · cases hBad
      rw [hBad']
      exact .error hd
  | case8 pos c cs hQuote hSlash content taken rest hRec ih =>
    rw [stringBody.eq_def]
    dsimp only
    rw [if_neg hQuote, if_neg hSlash]
    rw [hRec] at ih
    rcases ih.cases with ⟨_, _, hOk, hOk', rfl⟩ | ⟨_, _, hBad, -⟩
    · cases hOk
      rw [hOk']
      exact .ok rfl
    · cases hBad

theorem closeCharacter_like (x : Char) (taken cs : List Char) :
    L.Results Eq (closeCharacter start stop pos x taken cs) (closeCharacter start' stop' pos' x taken cs) := by
  unfold closeCharacter
  split
  · exact .error (.of_place (hSpans _ _) rfl rfl rfl fun _ => rfl)
  · split
    · exact .ok rfl
    · exact .error (.of_place (hSpans _ _) rfl rfl rfl fun _ => rfl)

theorem characterPiece_like (c : Char) (cs : List Char) :
    L.Results Eq (characterPiece stop pos c cs) (characterPiece stop' pos' c cs) := by
  unfold characterPiece
  split
  · exact .error (.of_place (hSpans _ _) rfl rfl rfl fun _ => rfl)
  · split
    · split
      · exact .error (.of_place (hSpans _ _) rfl rfl rfl fun _ => rfl)
      · split
        · exact .error (.of_place (hSpans _ _) rfl rfl rfl fun _ => rfl)
        · exact closeCharacter_like hSpans _ _ _
    · exact closeCharacter_like hSpans _ _ _

/-- **A piece is the same wherever it stands**, and so is what is no piece. -/
theorem piece_like (afterValue : Bool) (c : Char) (cs : List Char) :
    L.Results Eq (piece stop pos afterValue c cs) (piece stop' pos' afterValue c cs) := by
  have hRadix (radix : Nat) : L.Results Eq (radixPiece radix pos c cs) (radixPiece radix pos' c cs) := by
    unfold radixPiece
    dsimp only
    split
    · exact .ok rfl
    · exact .error (.of_place (hSpans _ _) rfl rfl rfl fun _ => rfl)
  unfold piece
  refine .ite (.ok rfl) (.ite (.ok rfl) (.ite (.ok rfl) (.ite ?_ (.ite (characterPiece_like hSpans c cs)
    (.ite (.ok rfl) (.ite ?_ (.ite (hRadix 16) (.ite (hRadix 2) ?_))))))))
  · unfold stringPiece
    rcases (stringBody_like hSpans cs).cases with ⟨found, _, hOk, hOk', rfl⟩ | ⟨d, d', hBad, hBad', hd⟩
    · rw [hOk, hOk']
      exact .ok rfl
    · rw [hBad, hBad']
      exact .error hd
  · unfold numberPiece
    dsimp only
    split
    · exact .ok rfl
    · exact .error (.of_place (hSpans _ _) rfl rfl rfl fun _ => rfl)
  · unfold markPiece
    split
    · exact .ok rfl
    · exact .ok rfl
    · split
      · exact .ok rfl
      · exact .error (.of_place (hSpans _ _) rfl rfl rfl fun _ => rfl)

/-- **The tokens of a text** correspond wherever it stands, if the offsets of all its characters do. -/
theorem scanFrom_like (hNames : ∀ name, L.names name name) (afterValue : Bool) (cs : List Char)
    (hStarts : ∀ front rest, cs = front ++ rest → L.starts (pos + utf8Length front) (pos' + utf8Length front)) :
    L.Results (List.Forall₂ (Token.Like L)) (scanFrom stop pos afterValue cs) (scanFrom stop' pos' afterValue cs) := by
  induction hLength : cs.length using Nat.strongRecOn generalizing pos pos' afterValue cs with
  | ind n ih =>
    cases cs with
    | nil =>
      rw [scanFrom, scanFrom]
      exact .ok .nil
    | cons c cs =>
      have hPieces : L.Results Eq (piece stop pos afterValue c cs) (piece stop' pos' afterValue c cs) :=
        piece_like hSpans afterValue c cs
      rcases hPieces.cases with ⟨p, _, hOk, hOk', rfl⟩ | ⟨d, d', hBad, hBad', hd⟩
      · obtain ⟨ts, hTaken, hRest⟩ := piece_split hOk
        have hText : c :: cs = p.taken ++ p.rest := by rw [hTaken, List.cons_append, hRest]
        have hLater (afterValue : Bool) : L.Results (List.Forall₂ (Token.Like L))
            (scanFrom stop (pos + utf8Length p.taken) afterValue p.rest)
            (scanFrom stop' (pos' + utf8Length p.taken) afterValue p.rest) := by
          refine ih p.rest.length (hLength ▸ piece_rest_lt hOk) afterValue p.rest (fun front rest hFront => ?_) rfl
          have hStart := hStarts (p.taken ++ front) rest (by rw [hText, hFront, List.append_assoc])
          rwa [Text.utf8Length_append, ← Nat.add_assoc, ← Nat.add_assoc] at hStart
        cases hLexeme : p.lexeme with
        | none =>
          rw [scanFrom_of_blank hOk hLexeme, scanFrom_of_blank hOk' hLexeme]
          exact hLater afterValue
        | some l =>
          have hToken : Token.Like L ⟨l, ⟨pos, utf8Length p.taken⟩⟩ ⟨l, ⟨pos', utf8Length p.taken⟩⟩ :=
            ⟨.refl hNames l, hSpans _ _, hStarts [] (c :: cs) rfl⟩
          rw [scanFrom_of_token hOk hLexeme, scanFrom_of_token hOk' hLexeme]
          exact (hLater l.endsValue).map fun _ _ hTokens => .cons hToken hTokens
      · rw [scanFrom_of_error hBad, scanFrom_of_error hBad']
        exact .error hd

end Token

end CrossAsm
