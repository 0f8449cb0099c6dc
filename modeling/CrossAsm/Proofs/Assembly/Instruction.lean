import CrossAsm.Proofs.Assembly.Run

/-!
# CrossAsm — instructions of a program

`Assembly.pending?` reads the head of a statement: it tells whether an instruction stands there, which one,
and in which state its operands are read. If the statement gets through, its operands were resolved in that
state and written by the encoder, and nothing else was written.

`Family.accepted_instruction` says this of the instructions of a program: their output is found in the
region of the program where the run stood.
-/

namespace CrossAsm

/-- An instruction whose operands are about to be read. -/
structure Pending (Mnemonic Feature : Type) where
  mnemonic : Mnemonic
  /-- The operand that the name of the instruction carries. -/
  implied : Option Nat
  /-- The place of the name. -/
  span : Span
  /-- The label of the statement is defined, and the cursor is at the operands. -/
  state : Assembly Feature

/-- An instruction with its operands, and the place where its output starts. -/
structure Placed (Mnemonic Mode : Type) where
  /-- The index of the region. -/
  region : Nat
  /-- The offset in the region. -/
  start : Nat
  instruction : Instruction Mnemonic Mode

namespace Pending

variable {Mnemonic Mode Feature : Type} (w : Pending Mnemonic Feature)

/-- The place of the instruction with its operands. -/
def place : Span := w.span.through w.state.cursor.statementSpan

def site (policy : Policy) : Site Feature := ⟨w.state.machine, policy, w.place⟩

/-- What its operands can refer to. -/
def scope (F : Family Mnemonic Mode Feature) : Scope :=
  ⟨w.state.symbols, w.state.current.output.positionExpr w.place, F.isReserved⟩

/-- The encoder at its start. -/
def encoder : Encoder where
  output := w.state.current.output
  symbols := w.state.symbols
  reported := w.state.reported

/-- Its operands, and the cursor behind them. -/
def operands [DecidableEq Mode] [Flag Mode] (F : Family Mnemonic Mode Feature) :
    Except Diagnostic (Operand Mode × Operand Mode × Cursor) :=
  Encoder.resolveOperands F w.state.machine (w.scope F) w.mnemonic w.implied w.state.cursor

end Pending

namespace Assembly

variable {Mnemonic Mode Feature : Type}

-- --------
-- The head of a statement
-- --------

/-- Reads and defines the label of a statement, if it has one. -/
def labelled : Assemble Feature Unit := do
  match ← label with
  | none => pure ()
  | some (name, span) => defineLabel name span

/-- The state behind the label of a statement. -/
def behindLabel (s : Assembly Feature) : Assembly Feature := Action.stateAfter (labelled s)

/-- The instruction that stands behind the label of a statement, if one does. -/
def pending? (F : Family Mnemonic Mode Feature) (s : Assembly Feature) :
    Option (Pending Mnemonic Feature) :=
  let s := behindLabel s
  let c := s.cursor.next
  match s.cursor.peek.lexeme with
  | .identifier name =>
    if (c.eat? (.mark .equals)).isSome || (c.eatWord? "equ").isSome then none
    else (F.mnemonic? name).map fun (m, implied) =>
      ⟨m, implied, s.cursor.peek.span, { s with cursor := c }⟩
  | _ => none

theorem behindLabel_of_none {s : Assembly Feature} (h : s.cursor.label? = none) :
    behindLabel s = { s with cursor := s.cursor.behindLabel } := by
  unfold behindLabel labelled
  rw [Action.bind_of_ok (label_eq s), h]
  rfl

theorem behindLabel_of_some {s : Assembly Feature} {name : String} {span : Span}
    (h : s.cursor.label? = some (name, span)) :
    behindLabel s =
      Action.stateAfter (defineLabel name span { s with cursor := s.cursor.behindLabel }) := by
  unfold behindLabel labelled
  rw [Action.bind_of_ok (label_eq s), h]

/-- A label changes nothing but the symbols. -/
theorem relabels_behindLabel (s : Assembly Feature) : Relabels s (behindLabel s) := by
  have hRead := Labels.of_cursor s s.cursor.behindLabel
  cases hLabel : s.cursor.label? with
  | none =>
    rw [behindLabel_of_none hLabel]
    exact hRead.same
  | some found =>
    obtain ⟨name, span⟩ := found
    have hDefine : Labels _ (Action.stateAfter (defineLabel name span _)) :=
      admitsReading_labels.keeps_defineLabel trivial span { s with cursor := s.cursor.behindLabel }
    have hAll : Labels _ _ := Trans.trans hRead hDefine
    rw [behindLabel_of_some hLabel]
    exact hAll.same

theorem cursor_behindLabel (s : Assembly Feature) :
    (behindLabel s).cursor = s.cursor.behindLabel := by
  cases hLabel : s.cursor.label? with
  | none => rw [behindLabel_of_none hLabel]
  | some found =>
    obtain ⟨name, span⟩ := found
    rw [behindLabel_of_some hLabel]
    show (Action.stateAfter ((require _ >>= fun _ => _) _)).cursor = _
    cases s.symbols.define name (s.current.output.positionExpr span) span with
    | ok symbols => rfl
    | error d => rfl

-- --------
-- Getting through an instruction
-- --------

variable {s s' : Assembly Feature}

section

variable [DecidableEq Mode] [Flag Mode] [Flag Feature] {job : Job Mnemonic Mode Feature}

/-- What stands behind a label is read after the label is defined, unless it is `.org`. -/
theorem optionalContent_behindLabel (hAt : atOrigin s.cursor.behindLabel = false)
    (hRun : parts job s = .ok () s') : optionalContent job (behindLabel s) = .ok () s' := by
  rw [parts_eq] at hRun
  cases hLabel : s.cursor.label? with
  | none =>
    rw [hLabel] at hRun
    rw [behindLabel_of_none hLabel]
    exact hRun
  | some found =>
    obtain ⟨label, span⟩ := found
    simp only [hLabel, hAt, Bool.false_eq_true, if_false] at hRun
    obtain ⟨⟨⟩, s₂, hDefine, hContent⟩ := Action.bind_eq_ok.mp hRun
    rw [behindLabel_of_some hLabel, hDefine]
    exact hContent

/-- An instruction is not `.org`. -/
theorem optionalContent_of_parts {name : String}
    (hName : (behindLabel s).cursor.peek.lexeme = .identifier name)
    (hRun : parts job s = .ok () s') : optionalContent job (behindLabel s) = .ok () s' := by
  refine optionalContent_behindLabel ?_ hRun
  rw [cursor_behindLabel] at hName
  simp [atOrigin, Cursor.isAt, hName, Lexeme.kind]

omit [DecidableEq Mode] [Flag Mode] [Flag Feature] in
theorem eatEquals_eq_false (hEquals : s.cursor.eat? (.mark .equals) = none)
    (hWord : s.cursor.eatWord? "equ" = none) : eatEquals s = .ok false s := by
  have hEat : eat (.mark .equals) s = .ok false s := by
    unfold eat
    rw [Action.bind_of_ok (look_eq_ok.mpr ⟨rfl, rfl⟩), hEquals]
    rfl
  have hEatWord : eatWord "equ" s = .ok false s := by
    unfold eatWord
    rw [Action.bind_of_ok (look_eq_ok.mpr ⟨rfl, rfl⟩), hWord]
    rfl
  unfold eatEquals
  rw [Action.bind_of_ok hEat]
  exact hEatWord

/-- A name without an equals sign behind it is taken for an instruction. -/
theorem content_eq_instruction {name : String} (hName : s.cursor.peek.lexeme = .identifier name)
    (hEquals : s.cursor.next.eat? (.mark .equals) = none)
    (hWord : s.cursor.next.eatWord? "equ" = none) :
    content job s = instruction job name s.cursor.peek.span { s with cursor := s.cursor.next } := by
  have hAdvance : advance s = .ok s.cursor.peek { s with cursor := s.cursor.next } := rfl
  have hNone := eatEquals_eq_false (s := { s with cursor := s.cursor.next }) hEquals hWord
  unfold content
  rw [Action.bind_of_ok hAdvance, hName]
  exact Action.bind_of_ok hNone _

omit [DecidableEq Mode] [Flag Mode] [Flag Feature] in
/-- The head of a statement at which an instruction stands. -/
theorem pending?_eq_some {F : Family Mnemonic Mode Feature} {w : Pending Mnemonic Feature}
    (h : pending? F s = some w) :
    ∃ name, (behindLabel s).cursor.peek.lexeme = .identifier name ∧
      (behindLabel s).cursor.next.eat? (.mark .equals) = none ∧
      (behindLabel s).cursor.next.eatWord? "equ" = none ∧
      F.mnemonic? name = some (w.mnemonic, w.implied) ∧
      w.span = (behindLabel s).cursor.peek.span ∧
      w.state = { behindLabel s with cursor := (behindLabel s).cursor.next } := by
  unfold pending? at h
  dsimp only at h
  split at h
  · next name hName =>
    refine ⟨name, hName, ?_⟩
    split at h
    · cases h
    · next hNone =>
      obtain ⟨⟨m, implied⟩, hMnemonic, rfl⟩ := Option.map_eq_some_iff.mp h
      simp only [Bool.or_eq_true, not_or, Option.not_isSome_iff_eq_none] at hNone
      exact ⟨hNone.1, hNone.2, hMnemonic, rfl, rfl⟩
  · cases h

omit [DecidableEq Mode] [Flag Mode] [Flag Feature] in
/-- The operands of an instruction stand behind its name. -/
theorem cursor_of_pending? {F : Family Mnemonic Mode Feature} {w : Pending Mnemonic Feature}
    (h : pending? F s = some w) :
    ∃ name, s.cursor.behindLabel.peek.lexeme = .identifier name ∧ w.state.cursor = s.cursor.behindLabel.next := by
  obtain ⟨name, hName, -, -, -, -, hState⟩ := pending?_eq_some h
  rw [cursor_behindLabel] at hName
  exact ⟨name, hName, by rw [hState, cursor_behindLabel]⟩

omit [DecidableEq Mode] [Flag Mode] [Flag Feature] in
/-- No instruction stands at the end of a line. -/
theorem not_isAt_newline_of_pending? {F : Family Mnemonic Mode Feature} {w : Pending Mnemonic Feature}
    (h : pending? F s = some w) : s.cursor.isAt .newline = false := by
  refine Bool.eq_false_iff.mpr fun hAt => ?_
  have hNewline : s.cursor.peek.lexeme = .newline := by
    rw [Cursor.isAt, beq_iff_eq] at hAt
    cases hLexeme : s.cursor.peek.lexeme <;> simp [hLexeme, Lexeme.kind] at hAt ⊢
  have hSame : behindLabel s = s := by
    have hLabel : label s = .ok none s := by
      unfold label
      rw [Action.bind_of_ok (look_eq_ok.mpr ⟨rfl, rfl⟩), hNewline]
      rfl
    unfold behindLabel labelled
    rw [Action.bind_of_ok hLabel]
    rfl
  obtain ⟨name, hName, -⟩ := pending?_eq_some h
  rw [hSame, hNewline] at hName
  cases hName

omit [DecidableEq Mode] [Flag Mode] [Flag Feature] in
/-- Reading the head of a statement writes nothing. -/
theorem relabels_of_pending? {F : Family Mnemonic Mode Feature} {w : Pending Mnemonic Feature}
    (h : pending? F s = some w) : Relabels s w.state := by
  obtain ⟨-, -, -, -, -, -, hState⟩ := pending?_eq_some h
  obtain ⟨symbols, c, hSame⟩ := relabels_behindLabel s
  rw [hState, hSame]
  exact ⟨symbols, _, rfl⟩

/-- A statement that gets through an instruction puts out what the encoder makes of it. -/
theorem dispatch_of_wholeStatement {w : Pending Mnemonic Feature}
    (hRun : wholeStatement job s = .ok () s') (hw : pending? job.family s = some w) :
    ∃ c e, Encoder.dispatch job.family (w.site job.policy) w.mnemonic w.implied w.state.cursor w.encoder =
        .ok c e ∧
      c.atStatementEnd = true ∧ s'.earlier = w.state.earlier ∧ s'.current.output = e.output ∧
      s'.symbols = e.symbols := by
  obtain ⟨name, hName, hEquals, hWord, hMnemonic, hSpan, hState⟩ := pending?_eq_some hw
  obtain ⟨hParts, hEnd⟩ := parts_of_wholeStatement hRun
  have hContent : content job (behindLabel s) = .ok () s' := by
    obtain ⟨c, s₂, hLook, hContent⟩ :=
      Action.bind_eq_ok.mp (optionalContent_of_parts hName hParts)
    obtain ⟨rfl, rfl⟩ := look_eq_ok.mp hLook
    have hNotEnd : (behindLabel s).cursor.atStatementEnd = false := by
      simp [Cursor.atStatementEnd, hName, Lexeme.endsStatement]
    simpa only [hNotEnd, Bool.false_eq_true, if_false] using hContent
  rw [content_eq_instruction hName hEquals hWord, ← hSpan] at hContent
  change instruction job name w.span { behindLabel s with cursor := _ } = _ at hContent
  rw [← hState] at hContent
  unfold instruction at hContent
  rw [hMnemonic] at hContent
  obtain ⟨_, _, hGet, hContent⟩ := Action.bind_eq_ok.mp hContent
  obtain ⟨rfl, rfl⟩ := Action.get_eq_ok.mp hGet
  obtain ⟨c, s₂, hEncode, hMove⟩ := Action.bind_eq_ok.mp hContent
  obtain ⟨e, hAct, rfl⟩ := encode_eq_ok hEncode
  obtain rfl := moveTo_eq_ok.mp hMove
  obtain ⟨e₁, hDispatch, hOutput, hSymbols⟩ := dispatch_of_encodeInstruction hAct
  exact ⟨c, e₁, hDispatch, hEnd, rfl, hOutput, hSymbols⟩

/-- **A statement that gets through an instruction** resolves its operands up to the end of the
statement and puts out what the encoder makes of them. -/
theorem finish_of_wholeStatement {w : Pending Mnemonic Feature}
    (hRun : wholeStatement job s = .ok () s') (hw : pending? job.family s = some w) :
    ∃ first second c e, w.operands job.family = .ok (first, second, c) ∧ c.atStatementEnd = true ∧
      Encoder.finish job.family (w.site job.policy) ⟨w.mnemonic, first, second⟩ w.encoder =
        .ok () e ∧
      s'.earlier = w.state.earlier ∧ s'.current.output = e.output ∧ s'.symbols = e.symbols := by
  obtain ⟨c, e, hDispatch, hEnd, hKept⟩ := dispatch_of_wholeStatement hRun hw
  obtain ⟨first, second, hOperands, hFinish⟩ := Encoder.finish_of_dispatch hDispatch
  exact ⟨first, second, c, e, hOperands, hEnd, hFinish, hKept⟩

-- --------
-- Which instructions get through
-- --------

/-- An instruction behind a label that can be defined is read in the state behind it. -/
theorem parts_of_name {name : String} (hName : (behindLabel s).cursor.peek.lexeme = .identifier name)
    (hLabel : ∀ label span, s.cursor.label? = some (label, span) → s.symbols.find? label = none) :
    parts job s = content job (behindLabel s) := by
  have hContent : optionalContent job (behindLabel s) = content job (behindLabel s) := by
    have hNotEnd : (behindLabel s).cursor.atStatementEnd = false := by
      simp [Cursor.atStatementEnd, hName, Lexeme.endsStatement]
    unfold optionalContent
    rw [Action.bind_of_ok (look_eq_ok.mpr ⟨rfl, rfl⟩), if_neg (Bool.eq_false_iff.mp hNotEnd)]
  rw [parts_eq, ← hContent]
  cases hFound : s.cursor.label? with
  | none =>
    rw [behindLabel_of_none hFound]
  | some found =>
    obtain ⟨label, span⟩ := found
    have hOrigin : atOrigin s.cursor.behindLabel = false := by
      rw [cursor_behindLabel] at hName
      simp [atOrigin, Cursor.isAt, hName, Lexeme.kind]
    obtain ⟨symbols, hDefine⟩ := SymbolTable.exists_define
      (hLabel label span hFound) (s.current.output.positionExpr span) span
    have hDone : defineLabel label span { s with cursor := s.cursor.behindLabel } =
        .ok () { s with cursor := s.cursor.behindLabel, symbols } :=
      defineLabel_eq_ok.mpr ⟨symbols, hDefine, rfl⟩
    simp only [hOrigin, Bool.false_eq_true, if_false]
    rw [Action.bind_of_ok hDone, behindLabel_of_some hFound, hDone]
    rfl

/-- What was synthesized is reported last. -/
theorem exists_encodeInstruction_iff {F : Family Mnemonic Mode Feature} {site : Site Feature}
    {m : Mnemonic} {implied : Option Nat} {c c' : Cursor} {e : Encoder} :
    (∃ e', encodeInstruction F site m implied c e = .ok c' e') ↔
      ∃ e₁, Encoder.dispatch F site m implied c e = .ok c' e₁ ∧ (e₁.synthesized = true →
        site.policy.isError (.synthesized (F.display m) (e₁.instructions - 1) site.span) = false) := by
  constructor
  · rintro ⟨e', h⟩
    obtain ⟨e₁, hDispatch, -⟩ := dispatch_of_encodeInstruction h
    refine ⟨e₁, hDispatch, fun hFlag => ?_⟩
    rw [encodeInstruction_of_synthesized hDispatch hFlag] at h
    obtain ⟨⟨⟩, e₂, hReport, -⟩ := Action.bind_eq_ok.mp h
    exact Encoder.exists_report_iff.mp ⟨e₂, hReport⟩
  · rintro ⟨e₁, hDispatch, hReport⟩
    cases hFlag : e₁.synthesized with
    | false => exact ⟨e₁, encodeInstruction_of_native hDispatch hFlag⟩
    | true =>
      obtain ⟨e₂, hReported⟩ := Encoder.exists_report_iff.mpr (hReport hFlag)
      rw [encodeInstruction_of_synthesized hDispatch hFlag]
      exact ⟨e₂, Action.bind_of_ok hReported _⟩

variable {w : Pending Mnemonic Feature} (hw : pending? job.family s = some w)
  (hLabel : ∀ label span, s.cursor.label? = some (label, span) → s.symbols.find? label = none)

include hw hLabel

/-- What the statement of an instruction comes down to. -/
theorem parts_of_pending? :
    parts job s = (encode (encodeInstruction job.family (w.site job.policy) w.mnemonic w.implied
      w.state.cursor) >>= moveTo) w.state := by
  obtain ⟨name, hName, hEquals, hWord, hMnemonic, hSpan, hState⟩ := pending?_eq_some hw
  rw [parts_of_name hName hLabel, content_eq_instruction hName hEquals hWord, ← hSpan, ← hState]
  unfold instruction
  rw [hMnemonic]
  rfl

/-- An instruction gets through if the encoder does, and has read all of its line. -/
theorem accepts_iff_encodes :
    (∃ s', wholeStatement job s = .ok () s') ↔
      ∃ c e, encodeInstruction job.family (w.site job.policy) w.mnemonic w.implied w.state.cursor w.encoder =
        .ok c e ∧ c.atStatementEnd = true := by
  have hParts := parts_of_pending? hw hLabel
  constructor
  · rintro ⟨s', hRun⟩
    obtain ⟨hDone, hEnd⟩ := parts_of_wholeStatement hRun
    rw [hParts] at hDone
    obtain ⟨c, s₁, hEncode, hMove⟩ := Action.bind_eq_ok.mp hDone
    obtain ⟨e, hAct, rfl⟩ := encode_eq_ok hEncode
    obtain rfl := moveTo_eq_ok.mp hMove
    exact ⟨c, e, hAct, hEnd⟩
  · rintro ⟨c, e, hAct, hEnd⟩
    have hEncode : encode (encodeInstruction job.family (w.site job.policy) w.mnemonic w.implied
        w.state.cursor) w.state = .ok c (w.state.withEncoder e) := by
      have hStart : encodeInstruction job.family (w.site job.policy) w.mnemonic w.implied w.state.cursor
          { output := w.state.current.output, symbols := w.state.symbols, reported := w.state.reported } =
            .ok c e := hAct
      unfold encode
      rw [hStart]
      rfl
    rw [Action.bind_of_ok hEncode] at hParts
    refine ⟨{ w.state.withEncoder e with cursor := c }, ?_⟩
    unfold wholeStatement
    rw [Action.bind_of_ok (hParts.trans rfl), Action.bind_of_ok (look_eq_ok.mpr ⟨rfl, rfl⟩)]
    show (if c.atStatementEnd = true then _ else _ : Assemble Feature Unit) _ = _
    rw [if_pos hEnd]
    rfl

/-- **Which instructions get through**: those that the encoder finishes, unless the policy takes offence at
what it synthesized. -/
theorem accepts_iff {first second : Operand Mode} {c : Cursor}
    (hFeatures : Encoder.checkFeatures job.family (w.site job.policy) w.mnemonic = .ok ())
    (hOperands : w.operands job.family = .ok (first, second, c)) (hEnd : c.atStatementEnd = true) :
    (∃ s', wholeStatement job s = .ok () s') ↔
      ∃ e, Encoder.finish job.family (w.site job.policy) ⟨w.mnemonic, first, second⟩ w.encoder = .ok () e ∧
        (e.synthesized = true → job.policy.isError
          (.synthesized (job.family.display w.mnemonic) (e.instructions - 1) w.place) = false) := by
  have hResolve : Encoder.resolveOperands job.family (w.site job.policy).machine ⟨w.encoder.symbols,
      w.encoder.output.positionExpr (w.site job.policy).span, job.family.isReserved⟩ w.mnemonic w.implied
        w.state.cursor = .ok (first, second, c) := hOperands
  rw [accepts_iff_encodes hw hLabel]
  constructor
  · rintro ⟨c', e, hEncode, -⟩
    obtain ⟨e₁, hRun, hReport⟩ := exists_encodeInstruction_iff.mp ⟨e, hEncode⟩
    exact ⟨e₁, ((Encoder.dispatch_iff_finish hFeatures hResolve).mp hRun).2, hReport⟩
  · rintro ⟨e, hFinish, hReport⟩
    have hRun := (Encoder.dispatch_iff_finish hFeatures hResolve).mpr ⟨rfl, hFinish⟩
    obtain ⟨e', hEncode⟩ := exists_encodeInstruction_iff.mpr ⟨e, hRun, hReport⟩
    exact ⟨c, e', hEncode, hEnd⟩

/-- An instruction that the encoder does not finish fails with the error of the encoder. -/
theorem wholeStatement_of_finish_error {first second : Operand Mode} {c : Cursor} {d : Diagnostic} {e : Encoder}
    (hFeatures : Encoder.checkFeatures job.family (w.site job.policy) w.mnemonic = .ok ())
    (hOperands : w.operands job.family = .ok (first, second, c))
    (hFinish : Encoder.finish job.family (w.site job.policy) ⟨w.mnemonic, first, second⟩ w.encoder = .error d e) :
    wholeStatement job s = .error d (w.state.withEncoder e) := by
  have hDispatch : Encoder.dispatch job.family (w.site job.policy) w.mnemonic w.implied w.state.cursor w.encoder =
      .error d e := by
    rw [Encoder.dispatch_of_operands (s := w.encoder) hFeatures hOperands]
    exact Action.bind_of_error hFinish _
  have hEncode : encode (encodeInstruction job.family (w.site job.policy) w.mnemonic w.implied w.state.cursor)
      w.state = .error d (w.state.withEncoder e) := encode_of_error (Action.bind_of_error hDispatch _)
  have hParts := parts_of_pending? hw hLabel
  rw [Action.bind_of_error hEncode] at hParts
  exact Action.bind_of_error hParts _

end

end Assembly

-- --------
-- Instructions of a program
-- --------

namespace Family

variable {Mnemonic Mode Feature : Type} [DecidableEq Mode] [Flag Mode] [Flag Feature]
  {F : Family Mnemonic Mode Feature} {machine : Machine Feature} {policy : Policy} {source : String}
  {p : Program} {s : Assembly Feature} {w : Pending Mnemonic Feature}

/-- **The instructions of a program.** The operands of each were resolved, and what the encoder wrote
for them is in the program, in the region in which the run stood. -/
theorem accepted_instruction (hAssembled : (F.assemble machine policy source).result = .ok p)
    (hs : s ∈ F.states machine policy source) (hw : Assembly.pending? F s = some w) :
    ∃ first second c e r,
      w.operands F = .ok (first, second, c) ∧ c.atStatementEnd = true ∧
      Encoder.finish F (w.site policy) ⟨w.mnemonic, first, second⟩ w.encoder = .ok () e ∧
      w.encoder.output.WellFormed ∧
      p.regions[s.regionIndex]? = some r ∧ e.output.Extends r.output ∧ r.output.WellFormed := by
  obtain ⟨hWell, hProgram, s', hRun, hIncludes⟩ :=
    accepted_statement hAssembled hs (Assembly.not_isAt_newline_of_pending? hw)
  obtain ⟨first, second, c, e, hOperands, hEnd, hFinish, hEarlier, hOutput, -⟩ :=
    Assembly.finish_of_wholeStatement hRun hw
  obtain ⟨symbols, c', hState⟩ := Assembly.relabels_of_pending? hw
  have hIndex : s'.regionIndex = s.regionIndex := by
    unfold Assembly.regionIndex
    rw [hEarlier, hState]
  obtain ⟨r, hr, hExtends⟩ := hIncludes _ _ (Assembly.getElem?_regions_regionIndex s')
  have hStart : w.encoder.output = s.current.output := by
    show w.state.current.output = _
    rw [hState]
  refine ⟨first, second, c, e, r, hOperands, hEnd, hFinish, ?_, ?_, ?_, ?_⟩
  · rw [hStart]
    exact hWell _ (List.mem_of_getElem? (Assembly.getElem?_regions_regionIndex s))
  · rw [← hIndex]
    exact hr
  · rw [← hOutput]
    exact hExtends
  · exact hProgram r (List.mem_of_getElem? hr)

/-- The encoder gets through with the operands of an instruction of a program. -/
theorem exists_finish_of_operands {first second : Operand Mode} {c : Cursor}
    (hAssembled : (F.assemble machine policy source).result = .ok p)
    (hs : s ∈ F.states machine policy source) (hw : Assembly.pending? F s = some w)
    (hOperands : w.operands F = .ok (first, second, c)) :
    ∃ e, Encoder.finish F (w.site policy) ⟨w.mnemonic, first, second⟩ w.encoder = .ok () e := by
  obtain ⟨first', second', c', e, r, hOperands', -, hFinish, -⟩ := accepted_instruction hAssembled hs hw
  obtain ⟨rfl, rfl, rfl⟩ : first' = first ∧ second' = second ∧ c' = c := by
    simpa using hOperands'.symm.trans hOperands
  exact ⟨e, hFinish⟩

variable (F machine policy source) in
/-- The instructions of a source text, in order. -/
def instructions : List (Placed Mnemonic Mode) :=
  (F.states machine policy source).filterMap fun s =>
    (Assembly.pending? F s).bind fun w =>
      match w.operands F with
      | .ok (first, second, _) =>
        some ⟨s.regionIndex, s.current.output.size, ⟨w.mnemonic, first, second⟩⟩
      | .error _ => none

/-- The program comes from a source text with the instruction `x`. -/
def HasInstruction (F : Family Mnemonic Mode Feature) (p : Program) (x : Placed Mnemonic Mode) :
    Prop :=
  ∃ machine policy source,
    (F.assemble machine policy source).result = .ok p ∧ x ∈ F.instructions machine policy source

theorem HasInstruction.exists_of_any {check : Placed Mnemonic Mode → Bool}
    (hAssembled : (F.assemble machine policy source).result = .ok p)
    (hCheck : (F.instructions machine policy source).any check = true) :
    ∃ x, F.HasInstruction p x ∧ check x = true := by
  obtain ⟨x, hx, hHolds⟩ := List.any_eq_true.mp hCheck
  exact ⟨x, ⟨machine, policy, source, hAssembled, hx⟩, hHolds⟩

/-- What the encoder wrote for an instruction is at its place in the program. -/
theorem HasInstruction.finish {x : Placed Mnemonic Mode} (h : F.HasInstruction p x) :
    ∃ site a e r, Encoder.finish F site x.instruction a = .ok () e ∧ a.output.size = x.start ∧
      p.regions[x.region]? = some r ∧ e.output.Extends r.output ∧ r.output.WellFormed := by
  obtain ⟨machine, policy, source, hAssembled, hx⟩ := h
  obtain ⟨s, hs, hx⟩ := List.mem_filterMap.mp hx
  obtain ⟨w, hw, hx⟩ := Option.bind_eq_some_iff.mp hx
  obtain ⟨first, second, c, e, r, hOperands, -, hFinish, -, hr, hExtends, hWell⟩ :=
    accepted_instruction hAssembled hs hw
  rw [hOperands] at hx
  obtain rfl := Option.some.inj hx
  obtain ⟨symbols, c₁, hState⟩ := Assembly.relabels_of_pending? hw
  refine ⟨w.site policy, w.encoder, e, r, hFinish, ?_, hr, hExtends, hWell⟩
  show w.state.current.output.size = _
  rw [hState]

end Family

end CrossAsm
