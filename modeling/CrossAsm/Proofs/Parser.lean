import CrossAsm.Parser

/-!
# CrossAsm — running parsers without problems

A parser that met no problem either recognised something (`Outcome.done`) or did not
(`Outcome.nothing`). A problem stays whatever is tried afterwards, so an outcome without problems comes
from outcomes without problems (`*_eq_done`); the other way round, an outcome is found by running the
parsers that it is put together from (`*_of_done`, `*_of_nothing`).
-/

namespace CrossAsm

-- --------
-- Reading a token
-- --------

namespace Cursor

variable {c c' : Cursor} {m k : Mark} {t : Token}

theorem eat?_mark_eq_none (h : c.peek.lexeme ≠ .mark m) : c.eat? (.mark m) = none := by
  have hKind : ¬ c.isAt (.mark m) = true := by
    rw [isAt, beq_iff_eq]
    cases hLexeme : c.peek.lexeme <;> simp_all [Lexeme.kind]
  exact if_neg hKind

theorem eat?_mark_eq_some :
    c.eat? (.mark m) = some (t, c') ↔ c.peek.lexeme = .mark m ∧ c.peek = t ∧ c.next = c' := by
  by_cases hLexeme : c.peek.lexeme = .mark m
  · simp [eat?, isAt, hLexeme, Lexeme.kind]
  · simp [eat?_mark_eq_none hLexeme, hLexeme]

/-- Only one mark stands at a place. -/
theorem eat?_eq_none_of_ne (h : c.eat? (.mark m) = some (t, c')) (hne : m ≠ k) :
    c.eat? (.mark k) = none := by
  refine eat?_mark_eq_none ?_
  rw [(eat?_mark_eq_some.mp h).1]
  simpa using hne

/-- Only one word stands at a place. -/
theorem eatWord?_eq_none_of_ne {w w' : String} (h : c.eatWord? w = some (t, c'))
    (hne : Text.lower w ≠ Text.lower w') : c.eatWord? w' = none := by
  unfold eatWord? at h ⊢
  cases hName : c.peek.lexeme.name? with
  | none => rfl
  | some name =>
    simp only [hName, Text.sameWord, beq_iff_eq] at h ⊢
    split at h
    · next hSame => rw [if_neg (by rw [hSame]; exact hne)]
    · cases h

theorem eat?_eq_none_of_atStatementEnd (h : c.atStatementEnd = true) : c.eat? (.mark m) = none := by
  refine eat?_mark_eq_none fun hLexeme => ?_
  simp [atStatementEnd, hLexeme, Lexeme.endsStatement] at h

theorem atOperandEnd_of_atStatementEnd (h : c.atStatementEnd = true) : c.atOperandEnd = true := by
  unfold atStatementEnd at h
  unfold atOperandEnd
  cases hLexeme : c.peek.lexeme <;> simp_all [Lexeme.endsStatement, Lexeme.endsOperand]

end Cursor

namespace Parser

variable {α β : Type} {c c' mid : Cursor} {p q : Parser α} {f : α → Parser β} {a : α}

-- --------
-- Taking an outcome apart
-- --------

theorem after_eq_done {problems : List Diagnostic} {o : Outcome α} :
    o.after problems = .done a c ↔ problems = [] ∧ o = .done a c := by
  obtain ⟨result, more⟩ := o
  simp only [Outcome.after, Outcome.done, Outcome.mk.injEq, List.append_eq_nil_iff]
  constructor
  · rintro ⟨hResult, hProblems, hMore⟩
    exact ⟨hProblems, hResult, hMore⟩
  · rintro ⟨hProblems, hResult, hMore⟩
    exact ⟨hResult, hProblems, hMore⟩

theorem done_eq_done {b : α} : Outcome.done a c = .done b c' ↔ a = b ∧ c = c' := by
  simp [Outcome.done]

theorem nothing_ne_done : (Outcome.nothing : Outcome α) ≠ .done a c := by
  simp [Outcome.nothing, Outcome.done]

theorem bind_eq_done {b : β} :
    (p >>= f) c = .done b c' ↔ ∃ a mid, p c = .done a mid ∧ f a mid = .done b c' := by
  show Parser.bind p f c = _ ↔ _
  unfold Parser.bind
  split
  · next problems hRun =>
    rw [hRun]
    simp [Outcome.done]
  · next a mid problems hRun =>
    rw [hRun, after_eq_done]
    constructor
    · rintro ⟨rfl, hRest⟩
      exact ⟨a, mid, rfl, hRest⟩
    · rintro ⟨a', mid', hDone, hRest⟩
      cases hDone
      exact ⟨rfl, hRest⟩

theorem pure_eq_done {b : α} : (pure a : Parser α) c = .done b c' ↔ a = b ∧ c = c' := done_eq_done

theorem fail_ne_done : (fail : Parser α) c ≠ .done a c' := nothing_ne_done

theorem problem_ne_done {d : Diagnostic} : (problem d : Parser α) c ≠ .done a c' := by
  simp [problem, Outcome.done]

/-- The second parser counts only if the first one met neither success nor a problem. -/
theorem orElse_eq_done (h : (p <|> q) c = .done a c') :
    p c = .done a c' ∨ p c = .nothing ∧ q c = .done a c' := by
  change Parser.orElse p (fun _ => q) c = _ at h
  unfold Parser.orElse at h
  split at h
  · next problems hRun =>
    obtain ⟨rfl, hRest⟩ := after_eq_done.mp h
    exact .inr ⟨hRun, hRest⟩
  · exact .inl h

theorem when_eq_done {condition : Bool} :
    Parser.when condition p c = .done a c' ↔ condition = true ∧ p c = .done a c' := by
  cases condition with
  | true => exact ⟨fun h => ⟨rfl, h⟩, fun h => h.2⟩
  | false => exact ⟨fun h => absurd (show fail c = _ from h) fail_ne_done, nofun⟩

theorem atEnd_eq_done {b : α} (h : atEnd a c = .done b c') : a = b ∧ c = c' := by
  unfold atEnd at h
  split at h
  · exact done_eq_done.mp h
  · exact absurd h nothing_ne_done

theorem mark_eq_done {m : Mark} {t : Token} :
    mark m c = .done t c' ↔ c.eat? (.mark m) = some (t, c') := by
  simp [mark, ofOption, Outcome.done]

-- --------
-- Running a parser
-- --------

theorem bind_of_done (h : p c = .done a mid) : (p >>= f) c = f a mid := by
  show Parser.bind p f c = _
  unfold Parser.bind
  rw [h]
  rfl

theorem bind_of_nothing (h : p c = .nothing) : (p >>= f) c = .nothing := by
  show Parser.bind p f c = _
  unfold Parser.bind
  rw [h]
  rfl

theorem orElse_of_done (h : p c = .done a c') : (p <|> q) c = .done a c' := by
  show Parser.orElse p (fun _ => q) c = _
  unfold Parser.orElse
  rw [h]
  rfl

theorem orElse_of_nothing (h : p c = .nothing) : (p <|> q) c = q c := by
  show Parser.orElse p (fun _ => q) c = _
  unfold Parser.orElse
  rw [h]
  rfl

theorem optional_of_done (h : p c = .done a c') : optional p c = .done (some a) c' := by
  unfold optional
  rw [h]
  rfl

theorem optional_of_nothing (h : p c = .nothing) : optional p c = .done none c := by
  unfold optional
  rw [h]
  rfl

theorem when_of_nothing {condition : Bool} (h : condition = true → p c = .nothing) :
    Parser.when condition p c = .nothing := by
  cases condition with
  | true => exact h rfl
  | false => rfl

variable {m : Mark} {w : String} {t : Token}

theorem mark_of_eat? (h : c.eat? (.mark m) = some (t, c')) : mark m c = .done t c' := by
  simp [mark, ofOption, h, Outcome.done]

theorem mark_of_eat?_none (h : c.eat? (.mark m) = none) : mark m c = .nothing := by
  simp [mark, ofOption, h, Outcome.nothing]

theorem word_of_eatWord? (h : c.eatWord? w = some (t, c')) : word w c = .done t c' := by
  simp [word, ofOption, h, Outcome.done]

theorem word_of_eatWord?_none (h : c.eatWord? w = none) : word w c = .nothing := by
  simp [word, ofOption, h, Outcome.nothing]

theorem atEnd_of_end (h : c.atOperandEnd = true) : atEnd a c = .done a c := if_pos h

theorem atEnd_of_not_end (h : c.atOperandEnd = false) : atEnd a c = .nothing := by
  simp [atEnd, h]

end Parser

end CrossAsm
