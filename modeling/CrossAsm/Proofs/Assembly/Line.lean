import CrossAsm.Proofs.Assembly.Run
import CrossAsm.Proofs.Reading.Operand
import CrossAsm.Proofs.Token

/-!
# CrossAsm — statements and lines

A statement stays in its line, whether it succeeds or fails, with one exception. `.`, `.cpu` and `.synth`
read their word before they look at it. Where the line ends there, they take the newline for the word, fail,
and the line behind it is skipped instead of their own.

* `Assembly.overruns` — a state at such a statement.
* `Assembly.cursor_statement` — where each statement ends.
* `Assembly.mem_visits_iff` — which lines of a source are assembled.
-/

namespace CrossAsm

-- --------
-- Ends of lines
-- --------

namespace Cursor

variable {c c' : Cursor}

theorem rest_of_not_end (h : c.atStatementEnd = false) :
    ∃ t rest, c.rest = t :: rest ∧ t.lexeme.endsStatement = false := by
  obtain ⟨tokens, stop⟩ := c
  cases tokens with
  | nil => cases h
  | cons t rest => exact ⟨t, rest, rfl, h⟩

theorem skipStatement_of_end (h : c.atStatementEnd = true) : c.skipStatement = c := by
  obtain ⟨tokens, stop⟩ := c
  cases tokens with
  | nil => rfl
  | cons t rest =>
    have hEnd : t.lexeme.endsStatement = true := h
    simp [skipStatement, hEnd]

theorem atStatementEnd_skipStatement (c : Cursor) : c.skipStatement.atStatementEnd = true := by
  obtain ⟨tokens, stop⟩ := c
  induction tokens with
  | nil => rfl
  | cons t rest ih =>
    cases hEnd : t.lexeme.endsStatement with
    | true =>
      have hHere : atStatementEnd ⟨t :: rest, stop⟩ = true := hEnd
      rw [skipStatement_of_end hHere]
      exact hHere
    | false =>
      have hSkip : skipStatement ⟨t :: rest, stop⟩ = skipStatement ⟨rest, stop⟩ := by
        simp [skipStatement, hEnd]
      rw [hSkip]
      exact ih

/-- Reading in a line up to its end is skipping to the end of the line. -/
theorem Reads.eq_skipStatement (h : c.Reads Lexeme.inStatement c') (hEnd : c'.atStatementEnd = true) :
    c' = c.skipStatement := by
  rw [← h.skipStatement_eq, skipStatement_of_end hEnd]

theorem skipStatement_suffix (c : Cursor) : c.skipStatement.rest <:+ c.rest :=
  List.dropWhile_suffix _

/-- Skipping reads something, unless the line ends here. -/
theorem skipStatement_suffix_tail (h : c.atStatementEnd = false) :
    c.skipStatement.rest <:+ c.rest.tail := by
  obtain ⟨t, rest, hRest, hOpen⟩ := rest_of_not_end h
  unfold skipStatement
  rw [hRest, List.dropWhile_cons_of_pos (by simp [hOpen])]
  exact List.dropWhile_suffix _

theorem next_skipStatement_suffix (c : Cursor) : c.skipStatement.next.rest <:+ c.rest.tail := by
  cases hEnd : c.atStatementEnd with
  | true =>
    rw [skipStatement_of_end hEnd]
    exact List.suffix_rfl
  | false => exact (List.tail_suffix _).trans (skipStatement_suffix_tail hEnd)

/-- A cursor is not the same once a token was read. -/
theorem ne_of_suffix_tail (h : c'.rest <:+ c.rest.tail) (hMore : c.isExhausted = false) : c' ≠ c := by
  rintro rfl
  have hLength := h.length_le
  rw [List.length_tail] at hLength
  have hPos : c'.rest.length ≠ 0 := fun hZero => by
    rw [isExhausted, List.length_eq_zero_iff.mp hZero] at hMore
    cases hMore
  omega

theorem atStatementEnd_of_newline (h : c.isAt .newline = true) : c.atStatementEnd = true := by
  unfold isAt at h
  unfold atStatementEnd
  cases hLexeme : c.peek.lexeme <;> simp_all [Lexeme.kind, Lexeme.endsStatement]

/-- All tokens are tokens of a source. -/
def Scanned (c : Cursor) : Prop := ∀ t ∈ c.rest, t.lexeme ≠ .endOfInput

theorem Scanned.of_suffix (h : c.Scanned) (hSuffix : c'.rest <:+ c.rest) : c'.Scanned :=
  fun t ht => h t (hSuffix.subset ht)

/-- In a source, a statement ends at a newline or where there are no more tokens. -/
theorem Scanned.atStatementEnd_eq (h : c.Scanned) (hMore : c.isExhausted = false) :
    c.atStatementEnd = c.isAt .newline := by
  obtain ⟨tokens, stop⟩ := c
  cases tokens with
  | nil => cases hMore
  | cons t rest =>
    have hToken := h t List.mem_cons_self
    show t.lexeme.endsStatement = (t.lexeme.kind == .newline)
    cases hLexeme : t.lexeme with
    | endOfInput => exact absurd hLexeme hToken
    | _ => rfl

/-- `c'` starts a line with a statement, in the text from `c` on. -/
inductive StartsLine : Cursor → Cursor → Prop
  | here {c : Cursor} (h : c.atStatementEnd = false) : StartsLine c c
  | later {c c' : Cursor} (h : StartsLine c.skipStatement.next c') : StartsLine c c'

namespace StartsLine

theorem atStatementEnd_eq (h : StartsLine c c') : c'.atStatementEnd = false := by
  induction h with
  | here h => exact h
  | later _ ih => exact ih

theorem suffix (h : StartsLine c c') : c'.rest <:+ c.rest := by
  induction h with
  | here _ => exact List.suffix_rfl
  | @later c c' _ ih => exact ih.trans ((List.tail_suffix _).trans c.skipStatement_suffix)

/-- Behind the end of a line there are only the lines that follow. -/
theorem of_end (h : StartsLine c c') (hEnd : c.atStatementEnd = true) : StartsLine c.next c' := by
  cases h with
  | here h =>
    rw [hEnd] at h
    cases h
  | later h =>
    rw [skipStatement_of_end hEnd] at h
    exact h

theorem skipStatement (h : StartsLine c.skipStatement.next c') : StartsLine c.skipStatement c' := by
  refine .later ?_
  rwa [skipStatement_of_end c.atStatementEnd_skipStatement]

theorem of_next (h : StartsLine c.next c') (hEnd : c.atStatementEnd = true) : StartsLine c c' := by
  refine .later ?_
  rwa [skipStatement_of_end hEnd]

theorem of_skipStatement (h : StartsLine c.skipStatement c') : StartsLine c c' :=
  .later (h.of_end c.atStatementEnd_skipStatement)

/-- A directive stands at the start of its line, but for a label. -/
theorem of_directive? {d : Directive} (h : c.behindLabel.directive? = some d) : StartsLine c c := by
  refine .here (Bool.eq_false_iff.mpr fun hEnd => ?_)
  have hNone : c.label? = none := by
    unfold Cursor.atStatementEnd at hEnd
    unfold Cursor.label?
    cases hLexeme : c.peek.lexeme <;> simp_all [Lexeme.endsStatement]
  have hHere : c.behindLabel = c := by
    rw [Cursor.behindLabel, hNone]
    rfl
  rw [hHere] at h
  have hPeriod := lexeme_of_isAt_mark (directive?_eq_some h).1
  simp [Cursor.atStatementEnd, hPeriod, Lexeme.endsStatement] at hEnd

theorem length_pos (h : StartsLine c c') : 0 < c.rest.length := by
  obtain ⟨t, rest, hRest, -⟩ := rest_of_not_end h.atStatementEnd_eq
  have hLength := h.suffix.length_le
  rw [hRest, List.length_cons] at hLength
  omega

theorem not_isExhausted (h : StartsLine c c') : c.isExhausted = false := by
  refine Bool.eq_false_iff.mpr fun hEnd => ?_
  have hLength := h.length_pos
  rw [List.isEmpty_iff.mp hEnd] at hLength
  cases hLength

end StartsLine

end Cursor

namespace Assembly

open CrossAsm.Action (KeepsAt)

variable {Mnemonic Mode Feature : Type}

-- --------
-- Where a statement ends
-- --------

/-- Whether the statement takes the end of its line for the word of a directive. A label that is defined
already keeps it from getting there. -/
def overruns (s : Assembly Feature) : Bool :=
  s.cursor.behindLabel.lacksWord &&
    match s.cursor.label? with
    | none => true
    | some (name, _) => (s.symbols.find? name).isNone

theorem not_overruns_of_end {s : Assembly Feature} (h : s.cursor.atStatementEnd = true) :
    s.overruns = false := by
  unfold Cursor.atStatementEnd at h
  unfold overruns Cursor.lacksWord Cursor.behindLabel Cursor.label? Cursor.isAt
  cases hLexeme : s.cursor.peek.lexeme <;> simp_all [Lexeme.endsStatement, Lexeme.kind]

/-- `b` reads on in the line of `a`. -/
def OnLine (a b : Assembly Feature) : Prop := a.cursor.Reads Lexeme.inStatement b.cursor

instance : Std.Refl (@OnLine Feature) where
  refl s := .refl s.cursor

instance : Trans (@OnLine Feature) OnLine OnLine where
  trans := Cursor.Reads.trans

section

variable [DecidableEq Mode] [Flag Mode] {job : Job Mnemonic Mode Feature} {s : Assembly Feature}

theorem admits_onLine (hF : job.family.Shipped) : Admits job OnLine where
  read h := h
  define _ _ := .refl _
  operands h := hF.reads_resolveOperands h
  machine s _ := .refl s.cursor
  encode {s _} _ := .refl s.cursor

omit [DecidableEq Mode] [Flag Mode] in
variable (job) in
theorem selectCpu_of_end (h : s.cursor.atStatementEnd = true) :
    ∃ d, selectCpu job s = .error d { s with cursor := s.cursor.next } := by
  have hNone : cpuName? s.cursor.peek.lexeme = none := by
    unfold Cursor.atStatementEnd at h
    cases hLexeme : s.cursor.peek.lexeme <;> simp_all [cpuName?, Lexeme.endsStatement]
  unfold selectCpu
  rw [Action.bind_of_ok (advance_eq s), hNone]
  exact ⟨_, rfl⟩

theorem setSynthesis_of_end (h : s.cursor.atStatementEnd = true) :
    ∃ d, setSynthesis s = .error d { s with cursor := s.cursor.next } := by
  have hNone : s.cursor.peek.lexeme.name? = none := by
    unfold Cursor.atStatementEnd at h
    cases hLexeme : s.cursor.peek.lexeme <;> simp_all [Lexeme.name?, Lexeme.endsStatement]
  unfold setSynthesis
  rw [Action.bind_of_ok (advance_eq s), hNone]
  exact ⟨_, rfl⟩

variable [Flag Feature]

/-- A directive that lacks its word fails behind the end of its line. -/
theorem optionalContent_of_lacksWord (h : s.cursor.lacksWord = true) :
    ∃ d s', optionalContent job s = .error d s' ∧ s'.cursor = s.cursor.skipStatement.next := by
  unfold Cursor.lacksWord at h
  rw [Bool.and_eq_true, Bool.or_eq_true, Bool.and_eq_true] at h
  obtain ⟨hPeriod, hLacks⟩ := h
  have hFirst : s.cursor.Reads Lexeme.inStatement s.cursor.next :=
    .next (Lexeme.inStatement_of_kind_mark (beq_iff_eq.mp hPeriod))
  rcases hLacks with hName | ⟨hTakes, hWord⟩
  · rw [← Cursor.peek_next] at hName
    have hNone : s.cursor.next.peek.lexeme.name? = none := by
      cases hLexeme : s.cursor.next.peek.lexeme <;> simp_all [Lexeme.name?, Lexeme.endsStatement]
    rw [← hFirst.eq_skipStatement hName, optionalContent_of_period hPeriod]
    unfold directive
    rw [Action.bind_of_ok (advance_eq _), hNone]
    exact ⟨_, _, rfl, rfl⟩
  · rw [← Cursor.peek_next_next] at hWord
    cases hDirective : s.cursor.directive? with
    | none => simp [hDirective] at hTakes
    | some d =>
      rw [hDirective, Option.any_some] at hTakes
      obtain ⟨-, name, hName, -⟩ := Cursor.directive?_eq_some hDirective
      rw [← Cursor.peek_next] at hName
      have hSecond : s.cursor.next.Reads Lexeme.inStatement s.cursor.next.next :=
        .next (Lexeme.inStatement_of_name? hName)
      rw [← (hFirst.trans hSecond).eq_skipStatement hWord, optionalContent_of_directive? hDirective]
      cases d with
      | cpu =>
        obtain ⟨d, hRun⟩ := selectCpu_of_end job
          (s := { s with cursor := s.cursor.next.next }) hWord
        exact ⟨d, _, hRun, rfl⟩
      | synthesis =>
        obtain ⟨d, hRun⟩ := setSynthesis_of_end (s := { s with cursor := s.cursor.next.next }) hWord
        exact ⟨d, _, hRun, rfl⟩
      | origin | data _ | basePage => cases hTakes

variable (job) in
/-- A label that is defined already fails its statement where the label ends. -/
theorem wholeStatement_of_redefined {name : String} {span : Span} {old : Symbol}
    (hLabel : s.cursor.label? = some (name, span)) (hOld : s.symbols.find? name = some old)
    (hOrigin : atOrigin s.cursor.behindLabel = false) :
    ∃ d, wholeStatement job s = .error d { s with cursor := s.cursor.behindLabel } := by
  have hDefine : ∃ d, defineLabel name span { s with cursor := s.cursor.behindLabel } =
      .error d { s with cursor := s.cursor.behindLabel } := by
    have hError : ∃ d, s.symbols.define name (s.current.output.positionExpr span) span = .error d := by
      unfold SymbolTable.define
      rw [hOld]
      exact ⟨_, rfl⟩
    obtain ⟨d, hError⟩ := hError
    exact ⟨d, defineLabel_of_error hError⟩
  obtain ⟨d, hDefine⟩ := hDefine
  have hParts : parts job s = .error d { s with cursor := s.cursor.behindLabel } := by
    rw [parts_eq, hLabel]
    dsimp only
    rw [if_neg (Bool.eq_false_iff.mp hOrigin)]
    exact Action.bind_of_error hDefine _
  exact ⟨d, Action.bind_of_error hParts _⟩

omit [DecidableEq Mode] [Flag Mode] [Flag Feature] in
theorem not_atOrigin_of_lacksWord {c : Cursor} (h : c.lacksWord = true) : atOrigin c = false := by
  refine Bool.eq_false_iff.mpr fun hAt => ?_
  have hOrigin := (Cursor.atOrigin_iff c).mp hAt
  obtain ⟨-, name, hName, -⟩ := Cursor.directive?_eq_some hOrigin
  have hOpen := Lexeme.inStatement_of_name? hName
  rw [Lexeme.inStatement, Bool.not_eq_true'] at hOpen
  simp [Cursor.lacksWord, hOrigin, hOpen, Directive.takesWord] at h

variable (job) in
/-- A statement that overruns its line fails just behind it. -/
theorem wholeStatement_of_overruns (h : s.overruns = true) :
    ∃ d s', wholeStatement job s = .error d s' ∧ s'.cursor = s.cursor.skipStatement.next := by
  unfold overruns at h
  rw [Bool.and_eq_true] at h
  obtain ⟨hLacks, hFree⟩ := h
  have hSkip := s.cursor.reads_behindLabel.skipStatement_eq
  suffices hParts : ∃ d s', parts job s = .error d s' ∧ s'.cursor = s.cursor.skipStatement.next by
    obtain ⟨d, s', hRun, hCursor⟩ := hParts
    exact ⟨d, s', Action.bind_of_error hRun _, hCursor⟩
  rw [parts_eq, ← hSkip]
  cases hLabel : s.cursor.label? with
  | none => exact optionalContent_of_lacksWord (s := { s with cursor := s.cursor.behindLabel }) hLacks
  | some found =>
    obtain ⟨name, span⟩ := found
    rw [hLabel, Option.isNone_iff_eq_none] at hFree
    dsimp only
    rw [if_neg (Bool.eq_false_iff.mp (not_atOrigin_of_lacksWord hLacks))]
    obtain ⟨symbols, hDefine⟩ : ∃ symbols,
        s.symbols.define name (s.current.output.positionExpr span) span = .ok symbols := by
      unfold SymbolTable.define
      rw [hFree]
      exact ⟨_, rfl⟩
    have hLabelled : defineLabel name span { s with cursor := s.cursor.behindLabel } =
        .ok () { s with symbols, cursor := s.cursor.behindLabel } :=
      defineLabel_eq_ok.mpr ⟨symbols, hDefine, rfl⟩
    rw [Action.bind_of_ok hLabelled]
    exact optionalContent_of_lacksWord
      (s := { s with symbols, cursor := s.cursor.behindLabel }) hLacks

/-- Any other statement stays in its line. -/
theorem reads_wholeStatement (hF : job.family.Shipped) (h : s.overruns = false) :
    s.cursor.Reads Lexeme.inStatement (Action.stateAfter (wholeStatement job s)).cursor := by
  cases hLacks : s.cursor.behindLabel.lacksWord with
  | false =>
    refine (admits_onLine hF).wholeStatement ?_ ?_
    · intro _ a origin span
      obtain ⟨earlier, current, hOpened⟩ := opened_eq a origin span
      rw [hOpened]
      exact .refl a.cursor
    · intro hWord
      rw [hLacks] at hWord
      cases hWord
  | true =>
    unfold overruns at h
    rw [hLacks, Bool.true_and] at h
    cases hLabel : s.cursor.label? with
    | none => simp [hLabel] at h
    | some found =>
      obtain ⟨name, span⟩ := found
      rw [hLabel] at h
      obtain ⟨old, hOld⟩ := Option.isSome_iff_exists.mp (by simpa using h)
      obtain ⟨d, hRun⟩ :=
        wholeStatement_of_redefined job hLabel hOld (not_atOrigin_of_lacksWord hLacks)
      rw [hRun]
      exact s.cursor.reads_behindLabel

omit [DecidableEq Mode] [Flag Mode] [Flag Feature] in
theorem cursor_rollback (s : Assembly Feature) (region : Nat) (c : Section.Checkpoint) :
    (s.rollback region c).cursor = s.cursor := by
  obtain ⟨earlier, current, hBack⟩ := rollback_eq s region c
  rw [hBack]

/-- **Where a statement ends**: at the end of its line, or of the next one if it overruns its own. -/
theorem cursor_statement (hF : job.family.Shipped) (s : Assembly Feature) :
    (statement job s).cursor =
      if s.overruns then s.cursor.skipStatement.next.skipStatement else s.cursor.skipStatement := by
  unfold statement
  dsimp only
  cases hOver : s.overruns with
  | true =>
    obtain ⟨d, s', hRun, hCursor⟩ := wholeStatement_of_overruns job hOver
    rw [hRun, if_pos rfl]
    show (s'.rollback _ _).cursor.skipStatement = _
    rw [cursor_rollback, hCursor]
  | false =>
    have hReads := reads_wholeStatement hF hOver
    rw [if_neg Bool.false_ne_true]
    cases hRun : wholeStatement job s with
    | ok u s' =>
      rw [hRun] at hReads
      exact hReads.eq_skipStatement (parts_of_wholeStatement hRun).2
    | error d s' =>
      rw [hRun] at hReads
      show (s'.rollback _ _).cursor.skipStatement = _
      rw [cursor_rollback]
      exact hReads.skipStatement_eq

/-- A statement that gets through ends at the end of its line. -/
theorem cursor_statement_of_ok (hF : job.family.Shipped) {s' : Assembly Feature}
    (h : wholeStatement job s = .ok () s') : (statement job s).cursor = s.cursor.skipStatement := by
  rw [cursor_statement hF, if_neg]
  intro hOver
  obtain ⟨d, s'', hFail, -⟩ := wholeStatement_of_overruns job hOver
  rw [h] at hFail
  cases hFail

-- --------
-- Steps through a source
-- --------

/-- **Every step reads at least one token.** -/
theorem suffix_step (hF : job.family.Shipped) (hScanned : s.cursor.Scanned)
    (hMore : s.cursor.isExhausted = false) : (step job s).cursor.rest <:+ s.cursor.rest.tail := by
  cases hAt : s.cursor.isAt .newline with
  | true =>
    rw [step_of_newline hAt]
    exact List.suffix_rfl
  | false =>
    have hOpen : s.cursor.atStatementEnd = false := by rw [hScanned.atStatementEnd_eq hMore, hAt]
    have hSkip := Cursor.skipStatement_suffix_tail hOpen
    rw [step_of_statement hAt, cursor_statement hF]
    split
    · exact (Cursor.skipStatement_suffix _).trans ((List.tail_suffix _).trans hSkip)
    · exact hSkip

/-- The states of a run come in the order of the source. -/
theorem suffix_of_mem_visits (hF : job.family.Shipped) {n : Nat} {start : Assembly Feature}
    (hScanned : start.cursor.Scanned) (hs : s ∈ visits job n start) :
    s.cursor.rest <:+ start.cursor.rest := by
  refine (visits_induction (motive := fun t => t.cursor.Scanned ∧ t.cursor.rest <:+ start.cursor.rest) ?_
    ⟨hScanned, List.suffix_rfl⟩ hs).2
  rintro t ⟨hScanned, hBehind⟩ hMore
  have hSuffix := (suffix_step hF hScanned hMore).trans (List.tail_suffix _)
  exact ⟨hScanned.of_suffix hSuffix, hSuffix.trans hBehind⟩

/-- The end of the source stays where it is. -/
theorem stop_step (hF : job.family.Shipped) (s : Assembly Feature) :
    (step job s).cursor.stop = s.cursor.stop := by
  cases hAt : s.cursor.isAt .newline with
  | true => rw [step_of_newline hAt, Cursor.next]
  | false =>
    rw [step_of_statement hAt, cursor_statement hF]
    split <;> rfl

theorem stop_of_mem_visits (hF : job.family.Shipped) {n : Nat} {start : Assembly Feature}
    (hs : s ∈ visits job n start) : s.cursor.stop = start.cursor.stop :=
  visits_induction (motive := fun t => t.cursor.stop = start.cursor.stop)
    (fun t hStop _ => (stop_step hF t).trans hStop) rfl hs

theorem pairwise_visits (hF : job.family.Shipped) (n : Nat) {start : Assembly Feature}
    (hScanned : start.cursor.Scanned) :
    (visits job n start).Pairwise fun a b => b.cursor.rest <:+ a.cursor.rest.tail := by
  induction n generalizing start with
  | zero => exact .nil
  | succ n ih =>
    unfold visits
    split
    · exact .nil
    · next hMore =>
      have hStep := suffix_step hF hScanned (Bool.eq_false_iff.mpr hMore)
      have hNext := hScanned.of_suffix (hStep.trans (List.tail_suffix _))
      refine .cons ?_ (ih hNext)
      intro b hb
      exact (suffix_of_mem_visits hF hNext hb).trans hStep

/-- **Which lines are assembled**: a run comes to the start of a line exactly if no statement has
overrun into it. -/
theorem mem_visits_iff (hF : job.family.Shipped) {n : Nat} {start : Assembly Feature}
    (hScanned : start.cursor.Scanned) (hn : start.cursor.rest.length ≤ n) {c : Cursor}
    (hc : start.cursor.StartsLine c) :
    (∃ s ∈ visits job n start, s.cursor = c) ↔
      ∀ s ∈ visits job n start, s.overruns = true → s.cursor.skipStatement.next ≠ c := by
  induction n generalizing start with
  | zero =>
    have hPos := hc.length_pos
    omega
  | succ n ih =>
    have hMore := hc.not_isExhausted
    have hStep := suffix_step hF hScanned hMore
    have hNext := hScanned.of_suffix (hStep.trans (List.tail_suffix _))
    have hLength : (step job start).cursor.rest.length ≤ n := by
      have hLe := hStep.length_le
      rw [List.length_tail] at hLe
      omega
    unfold visits
    rw [if_neg (Bool.eq_false_iff.mp hMore)]
    simp only [List.mem_cons, exists_eq_or_imp, forall_eq_or_imp]
    cases hc with
    | here hOpen =>
      -- All statements end behind their start.
      refine iff_of_true (.inl rfl) ⟨fun _ => ?_, fun s hs _ => ?_⟩
      · exact Cursor.ne_of_suffix_tail (Cursor.next_skipStatement_suffix _) hMore
      · have hBehind := suffix_of_mem_visits hF hNext hs
        refine Cursor.ne_of_suffix_tail (.trans ?_ (hBehind.trans hStep)) hMore
        exact (Cursor.next_skipStatement_suffix _).trans (List.tail_suffix _)
    | later hLater =>
      have hNe : start.cursor ≠ c := by
        refine (Cursor.ne_of_suffix_tail (hLater.suffix.trans ?_) hMore).symm
        exact Cursor.next_skipStatement_suffix _
      rw [or_iff_right hNe]
      cases hAt : start.cursor.isAt .newline with
      | true =>
        have hEnd := (hScanned.atStatementEnd_eq hMore).trans hAt
        have hIff := ih hNext hLength (by
          rw [step_of_newline hAt]
          exact Cursor.StartsLine.of_end (.later hLater) hEnd)
        rw [hIff, not_overruns_of_end hEnd]
        simp
      | false =>
        have hCursor := cursor_statement hF start
        rw [← step_of_statement hAt] at hCursor
        cases hOver : start.overruns with
        | false =>
          rw [hOver, if_neg Bool.false_ne_true] at hCursor
          have hIff := ih hNext hLength (by rw [hCursor]; exact hLater.skipStatement)
          rw [hIff]
          simp
        | true =>
          rw [hOver, if_pos rfl] at hCursor
          have hOut := hLater.not_isExhausted
          cases hLater with
          | here hOpen =>
            -- The line that was skipped: the run goes on at its end.
            refine iff_of_false ?_ fun hAll => hAll.1 rfl rfl
            rintro ⟨s, hs, hSame⟩
            have hBehind := suffix_of_mem_visits hF hNext hs
            rw [hCursor] at hBehind
            exact Cursor.ne_of_suffix_tail
              (hBehind.trans (Cursor.skipStatement_suffix_tail hOpen)) hOut hSame
          | later hLater =>
            have hIff := ih hNext hLength (by rw [hCursor]; exact hLater.skipStatement)
            have hOther : start.cursor.skipStatement.next ≠ c :=
              (Cursor.ne_of_suffix_tail
                (hLater.suffix.trans (Cursor.next_skipStatement_suffix _)) hOut).symm
            rw [hIff]
            simp [hOther]

variable (job) in
/-- **Statements keep to their lines**, but for those that overrun theirs. Each of those fails and ends
behind the next line, which is not assembled; all other lines are. -/
theorem statement_keeps_to_line (hF : job.family.Shipped) :
    (∀ s : Assembly Feature,
      (statement job s).cursor =
          (if s.overruns then s.cursor.skipStatement.next.skipStatement
            else s.cursor.skipStatement) ∧
        (s.overruns = true → ∃ d s', wholeStatement job s = .error d s')) ∧
    ∀ (machine : Machine Feature) (source : String) (tokens : List Token),
      Token.scan source = .ok tokens →
      ∀ c, (⟨tokens, source.utf8ByteSize⟩ : Cursor).StartsLine c →
        ((∃ s ∈ job.family.states machine job.policy source, s.cursor = c) ↔
          ∀ s ∈ job.family.states machine job.policy source, s.overruns = true →
            s.cursor.skipStatement.next ≠ c) := by
  refine ⟨fun s => ⟨cursor_statement hF s, fun hOver => ?_⟩, ?_⟩
  · obtain ⟨d, s', hRun, -⟩ := wholeStatement_of_overruns job hOver
    exact ⟨d, s', hRun⟩
  · intro machine source tokens hScan c hc
    rw [Family.states_of_scan _ _ _ _ hScan]
    have hJob : (job.family.job job.policy source).family.Shipped := hF
    refine mem_visits_iff hJob ?_ ?_ ?_
    · exact Token.scan_lexeme_ne hScan
    · exact Nat.le_refl _
    · exact hc

end

set_option maxRecDepth 10000 in
/-- The line behind `.cpu` is lost, and the one behind that is assembled. -/
theorem statement_keeps_to_line_cpu :
    ∃ tokens c, Token.scan ".cpu\nfoo\nrts\n" = .ok tokens ∧
      (⟨tokens, 13⟩ : Cursor).StartsLine c ∧ c.peek.lexeme = .identifier "rts" ∧
      ∃ s ∈ Mos65.family.states { features := {.base} } {} ".cpu\nfoo\nrts\n", s.cursor = c := by
  have hScan : Token.scan ".cpu\nfoo\nrts\n" = .ok
      [⟨.mark .period, ⟨0, 1⟩⟩, ⟨.identifier "cpu", ⟨1, 3⟩⟩, ⟨.newline, ⟨4, 1⟩⟩,
        ⟨.identifier "foo", ⟨5, 3⟩⟩, ⟨.newline, ⟨8, 1⟩⟩, ⟨.identifier "rts", ⟨9, 3⟩⟩,
        ⟨.newline, ⟨12, 1⟩⟩] := by decide +kernel
  have hLine : Cursor.StartsLine
      ⟨[⟨.mark .period, ⟨0, 1⟩⟩, ⟨.identifier "cpu", ⟨1, 3⟩⟩, ⟨.newline, ⟨4, 1⟩⟩,
        ⟨.identifier "foo", ⟨5, 3⟩⟩, ⟨.newline, ⟨8, 1⟩⟩, ⟨.identifier "rts", ⟨9, 3⟩⟩,
        ⟨.newline, ⟨12, 1⟩⟩], 13⟩
      ⟨[⟨.identifier "rts", ⟨9, 3⟩⟩, ⟨.newline, ⟨12, 1⟩⟩], 13⟩ :=
    .later (.later (.here rfl))
  refine ⟨_, _, hScan, hLine, rfl, ?_⟩
  refine ((statement_keeps_to_line (Mos65.family.job {} "") .mos65).2 _ _ _ hScan _ hLine).mpr ?_
  show ∀ s ∈ Mos65.family.states { features := {.base} } {} ".cpu\nfoo\nrts\n", _
  decide +kernel

set_option maxRecDepth 10000 in
/-- `.cpu` at the end of a line does not leave the cursor there, and a line that would fail is never
looked at. -/
theorem cpu_without_name_skips_next_line :
    ∃ s ∈ Mos65.family.states { features := {.base} } {} ".cpu\nfoo\n",
      s.cursor.atStatementEnd = false ∧
      (statement (Mos65.family.job {} ".cpu\nfoo\n") s).cursor ≠ s.cursor.skipStatement ∧
      ∀ s' ∈ Mos65.family.states { features := {.base} } {} ".cpu\nfoo\n",
        s'.cursor.peek.lexeme ≠ .identifier "foo" := by
  have hAny : (Mos65.family.states { features := {.base} } {} ".cpu\nfoo\n").any (fun s =>
      decide (s.cursor.atStatementEnd = false) &&
      decide ((statement (Mos65.family.job {} ".cpu\nfoo\n") s).cursor ≠ s.cursor.skipStatement)) =
      true := by decide +kernel
  have hAll : ∀ s' ∈ Mos65.family.states { features := {.base} } {} ".cpu\nfoo\n",
      s'.cursor.peek.lexeme ≠ .identifier "foo" := by decide +kernel
  obtain ⟨s, hs, hCheck⟩ := List.any_eq_true.mp hAny
  rw [Bool.and_eq_true, decide_eq_true_eq, decide_eq_true_eq] at hCheck
  exact ⟨s, hs, hCheck.1, hCheck.2, hAll⟩

end Assembly

end CrossAsm
