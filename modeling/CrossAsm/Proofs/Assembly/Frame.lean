import CrossAsm.Assembly.Statement
import CrossAsm.Proofs.Encoder.Output
import CrossAsm.Proofs.Reading

/-!
# CrossAsm — what a statement is made of

A statement changes the state of a run in few ways: it reads on in its line, defines symbols and writes
through the encoder. Three kinds of statements do one thing more. `.org` opens a region, other directives
select a machine, and a directive that lacks its word reads over the end of the line in search of it.

`AdmitsWriting.wholeStatement` follows a statement through all its parts once and for all. A relation between
states that admits these changes holds between the states before and after any statement, also one that
fails halfway. It may depend on the names that are defined: they stand in the statement.
-/

namespace CrossAsm

-- --------
-- The head of a statement
-- --------

/-- Whether the directive reads the next token whatever it is. -/
def Directive.takesWord : Directive → Bool
  | .cpu | .synthesis => true
  | .origin | .data _ | .basePage => false

/-- Whether the directive changes the machine. -/
def Directive.setsMachine : Directive → Bool
  | .cpu | .basePage | .synthesis => true
  | .origin | .data _ => false

namespace Cursor

variable {c : Cursor}

/-- The label at the cursor, with its place. -/
def label? (c : Cursor) : Option (String × Span) :=
  match c.peek.lexeme with
  | .identifier name => if c.next.isAt (.mark .colon) then some (name, c.peek.span) else none
  | _ => none

/-- The cursor behind the label, if there is one. -/
def behindLabel (c : Cursor) : Cursor := if c.label?.isSome then c.next.next else c

/-- The directive whose period and name stand at the cursor. -/
def directive? (c : Cursor) : Option Directive :=
  if c.isAt (.mark .period) then (c.peekAt 1).lexeme.name?.bind Directive.ofName? else none

/-- Whether the line ends where a directive needs a word: its name, or the word behind its name. -/
def lacksWord (c : Cursor) : Bool :=
  c.isAt (.mark .period) &&
    ((c.peekAt 1).lexeme.endsStatement ||
      c.directive?.any Directive.takesWord && (c.peekAt 2).lexeme.endsStatement)

theorem peekAt_zero (c : Cursor) : c.peekAt 0 = c.peek := by
  obtain ⟨tokens, stop⟩ := c
  cases tokens with
  | nil => rfl
  | cons t rest => rfl

theorem peekAt_next (c : Cursor) (n : Nat) : c.next.peekAt n = c.peekAt (n + 1) := by
  obtain ⟨tokens, stop⟩ := c
  cases tokens with
  | nil => rfl
  | cons t rest => rfl

theorem peek_next (c : Cursor) : c.next.peek = c.peekAt 1 := by
  rw [← peekAt_zero, peekAt_next]

theorem peek_next_next (c : Cursor) : c.next.next.peek = c.peekAt 2 := by
  rw [peek_next, peekAt_next]

theorem label?_eq_some {name : String} {span : Span} (h : c.label? = some (name, span)) :
    c.peek.lexeme = .identifier name ∧ c.next.isAt (.mark .colon) = true ∧ c.peek.span = span := by
  unfold label? at h
  split at h
  · next hName =>
    split at h
    · next hColon =>
      cases h
      exact ⟨hName, hColon, rfl⟩
    · cases h
  · cases h

theorem lexeme_of_isAt_mark {m : Mark} (h : c.isAt (.mark m) = true) : c.peek.lexeme = .mark m := by
  rw [isAt, beq_iff_eq] at h
  cases hLexeme : c.peek.lexeme <;> simp_all [Lexeme.kind]

theorem directive?_eq_some {d : Directive} (h : c.directive? = some d) :
    c.isAt (.mark .period) = true ∧
      ∃ name, (c.peekAt 1).lexeme.name? = some name ∧ Directive.ofName? name = some d := by
  unfold directive? at h
  split at h
  · next hAt => exact ⟨hAt, Option.bind_eq_some_iff.mp h⟩
  · cases h

/-- A label is read within its line. -/
theorem reads_behindLabel (c : Cursor) : c.Reads Lexeme.inStatement c.behindLabel := by
  unfold behindLabel
  cases hLabel : c.label? with
  | none => exact .refl c
  | some found =>
    obtain ⟨name, span⟩ := found
    obtain ⟨hName, hColon, -⟩ := label?_eq_some hLabel
    have hFirst : c.Reads Lexeme.inStatement c.next := .next (by rw [hName]; rfl)
    have hSecond : c.next.Reads Lexeme.inStatement c.next.next :=
      .next (Lexeme.inStatement_of_kind_mark (beq_iff_eq.mp hColon))
    exact hFirst.trans hSecond

/-- `.org` is recognised in front of a label's definition as it is in its place. -/
theorem atOrigin_iff (c : Cursor) : Assembly.atOrigin c = true ↔ c.directive? = some .origin := by
  have hOrg (name : String) : Text.sameWord name "org" = true ↔ Directive.ofName? name = some .origin := by
    have hLower : Text.lower "org" = "org" := by decide +kernel
    unfold Text.sameWord Directive.ofName?
    rw [hLower, beq_iff_eq]
    split <;> simp_all
  unfold Assembly.atOrigin directive?
  cases c.isAt (.mark .period) with
  | false => simp
  | true =>
    cases (c.peekAt 1).lexeme.name? with
    | none => simp
    | some name => simpa using hOrg name

namespace NamesIn

variable {N : String → Prop}

theorem behindLabel (h : c.NamesIn N) : c.behindLabel.NamesIn N := by
  refine h.of_suffix ?_
  unfold Cursor.behindLabel
  split
  · exact (List.tail_suffix _).trans (List.tail_suffix _)
  · exact List.suffix_rfl

theorem label? {name : String} {span : Span} (h : c.NamesIn N) (hLabel : c.label? = some (name, span)) :
    N name :=
  h.peek name (label?_eq_some hLabel).1

end NamesIn

end Cursor

namespace Assembly

open CrossAsm.Action (Keeps KeepsAt)

variable {Mnemonic Mode Feature : Type}

/-- The encoder at the start of an instruction. -/
def encoder (s : Assembly Feature) : Encoder where
  output := s.current.output
  symbols := s.symbols
  reported := s.reported

/-- The state with what an encoder has written. -/
def withEncoder (s : Assembly Feature) (e : Encoder) : Assembly Feature :=
  { s with current := { s.current with output := e.output }
           symbols := e.symbols
           reported := e.reported }

/-- The state in which output goes to `origin`. -/
def opened (s : Assembly Feature) (origin : Value) (span : Span) : Assembly Feature :=
  if s.current.output.isEmpty then
    { s with current := { output := s.current.output.setOrigin origin, span } }
  else
    { s with earlier := s.earlier ++ [s.current]
             current := { output := { origin := some origin }, span } }

/-- Opening a region changes nothing but the regions. -/
theorem opened_eq (s : Assembly Feature) (origin : Value) (span : Span) :
    ∃ earlier current, s.opened origin span = { s with earlier, current } := by
  unfold opened
  split
  · exact ⟨s.earlier, _, rfl⟩
  · exact ⟨_, _, rfl⟩

/-- The relation holds across reading on in a line and defining symbols whose names are in `N`. -/
structure AdmitsReading (N : String → Prop) (R : Assembly Feature → Assembly Feature → Prop) : Prop where
  read   : ∀ {s : Assembly Feature} {c}, s.cursor.Reads Lexeme.inStatement c →
             R s { s with cursor := c }
  define : ∀ {s : Assembly Feature} {name value span symbols}, N name →
             s.symbols.define name value span = .ok symbols → R s { s with symbols }

/-- The relation holds across instructions and data too. -/
structure AdmitsWriting [DecidableEq Mode] [Flag Mode] (N : String → Prop) (job : Job Mnemonic Mode Feature)
    (R : Assembly Feature → Assembly Feature → Prop) : Prop extends AdmitsReading N R where
  operands : ∀ {s : Assembly Feature} {machine scope m implied first second c},
               Encoder.resolveOperands job.family machine scope m implied s.cursor =
                 .ok (first, second, c) → R s { s with cursor := c }
  encode   : ∀ {s : Assembly Feature} {e}, s.encoder.Grows e → R s (s.withEncoder e)

/-- The relation holds across every change that a statement makes within its line and its region. -/
structure Admits [DecidableEq Mode] [Flag Mode] (job : Job Mnemonic Mode Feature)
    (R : Assembly Feature → Assembly Feature → Prop) : Prop extends AdmitsWriting (fun _ => True) job R where
  machine  : ∀ (s : Assembly Feature) (machine), R s { s with machine }

-- --------
-- Getting through
-- --------

section Success

variable {s s' : Assembly Feature}

theorem look_eq_ok {c : Cursor} : look s = .ok c s' ↔ s.cursor = c ∧ s = s' := by
  show EStateM.Result.ok s.cursor s = .ok c s' ↔ _
  simp

theorem moveTo_eq_ok {c : Cursor} {u : Unit} :
    moveTo c s = .ok u s' ↔ { s with cursor := c } = s' := Action.modify_eq_ok

theorem advance_eq (s : Assembly Feature) :
    advance s = .ok s.cursor.peek { s with cursor := s.cursor.next } := rfl

theorem label_eq (s : Assembly Feature) :
    label s = .ok s.cursor.label? { s with cursor := s.cursor.behindLabel } := by
  unfold label
  rw [Action.bind_of_ok (look_eq_ok.mpr ⟨rfl, rfl⟩)]
  unfold Cursor.behindLabel Cursor.label? Cursor.eat?
  cases s.cursor.peek.lexeme with
  | identifier name =>
    cases s.cursor.next.isAt (.mark .colon) with
    | true => rfl
    | false => rfl
  | _ => rfl

/-- What an expression at the cursor can refer to. -/
def scopeHere (s : Assembly Feature) (F : Family Mnemonic Mode Feature) : Scope :=
  ⟨s.symbols, s.current.output.positionExpr s.cursor.peek.span, F.isReserved⟩

theorem expression_eq_ok {job : Job Mnemonic Mode Feature} {e : Expr}
    (h : expression job s = .ok e s') :
    ∃ c, Expr.parse (s.scopeHere job.family) 0 s.cursor = .done e c ∧ s' = { s with cursor := c } := by
  obtain ⟨_, _, hGet, h⟩ := Action.bind_eq_ok.mp h
  obtain ⟨rfl, rfl⟩ := Action.get_eq_ok.mp hGet
  generalize hParse : Expr.parse (s.scopeHere job.family) 0 s.cursor = outcome
  change Expr.parse ⟨s.symbols, _, job.family.isReserved⟩ 0 s.cursor = outcome at hParse
  rw [hParse] at h
  obtain ⟨_ | ⟨e', c⟩, _ | ⟨d, ds⟩⟩ := outcome
  · exact absurd h Action.throw_ne_ok
  · exact absurd h Action.throw_ne_ok
  · obtain ⟨⟨⟩, s₁, hMove, hDone⟩ := Action.bind_eq_ok.mp h
    obtain ⟨rfl, rfl⟩ := Action.pure_eq_ok.mp hDone
    exact ⟨c, rfl, (moveTo_eq_ok.mp hMove).symm⟩
  · exact absurd h Action.throw_ne_ok

theorem expression_of_done {job : Job Mnemonic Mode Feature} {e : Expr} {c : Cursor}
    (h : Expr.parse (s.scopeHere job.family) 0 s.cursor = .done e c) :
    expression job s = .ok e { s with cursor := c } := by
  unfold expression
  rw [Action.bind_of_ok (Action.get_eq_ok.mpr ⟨rfl, rfl⟩)]
  unfold scopeHere at h
  rw [h]
  rfl

theorem constant_eq_ok {job : Job Mnemonic Mode Feature} {kind : String} {low high v : Value}
    (h : constant job kind low high s = .ok v s') :
    ∃ e c, Expr.parse (s.scopeHere job.family) 0 s.cursor = .done e c ∧ e.value? = some v ∧
      s' = { s with cursor := c } := by
  obtain ⟨e, s₁, hExpression, h⟩ := Action.bind_eq_ok.mp h
  obtain ⟨c, hParse, rfl⟩ := expression_eq_ok hExpression
  cases hValue : e.value? with
  | none =>
    simp only [hValue] at h
    exact absurd h Action.throw_ne_ok
  | some x =>
    simp only [hValue] at h
    obtain ⟨checked, s₂, hCheck, hDone⟩ := Action.bind_eq_ok.mp h
    obtain ⟨rfl, rfl⟩ := Action.pure_eq_ok.mp hDone
    refine ⟨e, c, hParse, hValue, ?_⟩
    cases hRange : e.checkRange low high with
    | ok a =>
      rw [hRange] at hCheck
      exact (Action.pure_eq_ok.mp hCheck).2.symm
    | error d =>
      rw [hRange] at hCheck
      exact absurd hCheck Action.throw_ne_ok

/-- A definition changes nothing but the symbols. -/
theorem define_eq_ok {name : String} {value : Expr} {span : Span} {u : Unit} :
    Assembly.define name value span s = .ok u s' ↔
      ∃ symbols, s.symbols.define name value span = .ok symbols ∧ s' = { s with symbols } := by
  show (require _ >>= fun _ => _) s = _ ↔ _
  cases s.symbols.define name value span with
  | ok symbols =>
    show EStateM.Result.ok ⟨⟩ { s with symbols } = .ok u s' ↔ _
    simp [eq_comm]
  | error d =>
    show EStateM.Result.error d s = .ok u s' ↔ _
    simp

theorem define_of_error {name : String} {value : Expr} {span : Span} {d : Diagnostic}
    (h : s.symbols.define name value span = .error d) : Assembly.define name value span s = .error d s := by
  show (require (s.symbols.define name value span) >>= fun _ => _) s = _
  rw [h]
  rfl

theorem defineLabel_eq_ok {name : String} {span : Span} {u : Unit} :
    defineLabel name span s = .ok u s' ↔
      ∃ symbols, s.symbols.define name (s.current.output.positionExpr span) span = .ok symbols ∧
        s' = { s with symbols } := define_eq_ok

theorem defineLabel_of_error {name : String} {span : Span} {d : Diagnostic}
    (h : s.symbols.define name (s.current.output.positionExpr span) span = .error d) :
    defineLabel name span s = .error d s := define_of_error h

/-- What the encoder did goes to the current region. -/
theorem encode_eq_ok {α : Type} {act : Encode α} {a : α} (h : encode act s = .ok a s') :
    ∃ e, act s.encoder = .ok a e ∧ s' = s.withEncoder e := by
  unfold encode at h
  dsimp only at h
  split at h
  · next hAct =>
    cases h
    exact ⟨_, hAct, rfl⟩
  · cases h

theorem encode_of_ok {α : Type} {act : Encode α} {a : α} {e : Encoder} (h : act s.encoder = .ok a e) :
    encode act s = .ok a (s.withEncoder e) := by
  unfold encode
  unfold encoder at h
  rw [h]
  rfl

theorem encode_of_error {α : Type} {act : Encode α} {d : Diagnostic} {e : Encoder}
    (h : act s.encoder = .error d e) : encode act s = .error d (s.withEncoder e) := by
  unfold encode
  unfold encoder at h
  rw [h]
  rfl

section Instruction

variable [DecidableEq Mode] [Flag Mode] [Flag Feature] {F : Family Mnemonic Mode Feature} {site : Site Feature}
  {m : Mnemonic} {implied : Option Nat} {c c' : Cursor} {e e' e₁ : Encoder}

theorem encodeInstruction_of_native (h : Encoder.dispatch F site m implied c e = .ok c' e₁)
    (hNative : e₁.synthesized = false) : encodeInstruction F site m implied c e = .ok c' e₁ := by
  unfold encodeInstruction
  rw [Action.bind_of_ok h, Action.bind_of_ok (Action.get_eq_ok.mpr ⟨rfl, rfl⟩),
    if_neg (Bool.eq_false_iff.mp hNative)]
  rfl

theorem encodeInstruction_of_synthesized (h : Encoder.dispatch F site m implied c e = .ok c' e₁)
    (hSynthesized : e₁.synthesized = true) :
    encodeInstruction F site m implied c e =
      (Encoder.report site.policy (.synthesized (F.display m) (e₁.instructions - 1) site.span) >>= fun _ =>
        pure c') e₁ := by
  unfold encodeInstruction
  rw [Action.bind_of_ok h, Action.bind_of_ok (Action.get_eq_ok.mpr ⟨rfl, rfl⟩), if_pos hSynthesized]

/-- Reporting that something was synthesized changes neither output nor symbols. -/
theorem dispatch_of_encodeInstruction (h : encodeInstruction F site m implied c e = .ok c' e') :
    ∃ e₁, Encoder.dispatch F site m implied c e = .ok c' e₁ ∧ e'.output = e₁.output ∧
      e'.symbols = e₁.symbols := by
  obtain ⟨c₁, e₁, hDispatch, -⟩ := Action.bind_eq_ok.mp h
  cases hFlag : e₁.synthesized with
  | false =>
    rw [encodeInstruction_of_native hDispatch hFlag] at h
    cases h
    exact ⟨e', hDispatch, rfl, rfl⟩
  | true =>
    rw [encodeInstruction_of_synthesized hDispatch hFlag] at h
    obtain ⟨⟨⟩, e₂, hReport, hDone⟩ := Action.bind_eq_ok.mp h
    obtain ⟨rfl, rfl⟩ := Action.pure_eq_ok.mp hDone
    obtain ⟨new, -, rfl⟩ := Encoder.report_eq_ok hReport
    exact ⟨e₁, hDispatch, rfl, rfl⟩

end Instruction

section

variable [DecidableEq Mode] [Flag Mode] [Flag Feature] {job : Job Mnemonic Mode Feature}

theorem parts_eq (s : Assembly Feature) :
    parts job s =
      match s.cursor.label? with
      | none => optionalContent job { s with cursor := s.cursor.behindLabel }
      | some (name, span) =>
        if atOrigin s.cursor.behindLabel then
          (optionalContent job >>= fun _ => defineLabel name span)
            { s with cursor := s.cursor.behindLabel }
        else
          (defineLabel name span >>= fun _ => optionalContent job)
            { s with cursor := s.cursor.behindLabel } := by
  unfold parts
  rw [Action.bind_of_ok (label_eq s)]
  cases s.cursor.label? with
  | none => rfl
  | some found =>
    dsimp only
    rw [Action.bind_of_ok (look_eq_ok.mpr ⟨rfl, rfl⟩)]
    split <;> rfl

theorem parts_of_wholeStatement (h : wholeStatement job s = .ok () s') :
    parts job s = .ok () s' ∧ s'.cursor.atStatementEnd = true := by
  obtain ⟨⟨⟩, s₁, hParts, hRest⟩ := Action.bind_eq_ok.mp h
  obtain ⟨c, s₂, hLook, hRest⟩ := Action.bind_eq_ok.mp hRest
  obtain ⟨rfl, rfl⟩ := look_eq_ok.mp hLook
  by_cases hEnd : s₁.cursor.atStatementEnd = true
  · simp only [hEnd, if_true] at hRest
    obtain ⟨-, rfl⟩ := Action.pure_eq_ok.mp hRest
    exact ⟨hParts, hEnd⟩
  · simp only [hEnd] at hRest
    exact absurd hRest Action.throw_ne_ok

/-- A period starts a directive. -/
theorem optionalContent_of_period (hPeriod : s.cursor.isAt (.mark .period) = true) :
    optionalContent job s = directive job { s with cursor := s.cursor.next } := by
  have hLexeme := Cursor.lexeme_of_isAt_mark hPeriod
  have hStart : s.cursor.atStatementEnd = false := by
    simp [Cursor.atStatementEnd, hLexeme, Lexeme.endsStatement]
  unfold optionalContent
  rw [Action.bind_of_ok (look_eq_ok.mpr ⟨rfl, rfl⟩), if_neg (Bool.eq_false_iff.mp hStart)]
  unfold content
  rw [Action.bind_of_ok (advance_eq s), hLexeme]

/-- A directive is carried out where it is recognised. -/
theorem optionalContent_of_directive? {d : Directive} (h : s.cursor.directive? = some d) :
    optionalContent job s =
      carryOut job (s.cursor.peekAt 1).span d { s with cursor := s.cursor.next.next } := by
  obtain ⟨hPeriod, name, hName, hDirective⟩ := Cursor.directive?_eq_some h
  rw [optionalContent_of_period hPeriod]
  unfold directive
  rw [← Cursor.peek_next] at hName ⊢
  simp only [Action.bind_of_ok (advance_eq _), hName, hDirective]

theorem optionalContent_of_end (h : s.cursor.atStatementEnd = true) : optionalContent job s = .ok () s := by
  unfold optionalContent
  rw [Action.bind_of_ok (look_eq_ok.mpr ⟨rfl, rfl⟩), if_pos h]
  rfl

theorem optionalContent_of_not_end (h : s.cursor.atStatementEnd = false) :
    optionalContent job s = content job s := by
  unfold optionalContent
  rw [Action.bind_of_ok (look_eq_ok.mpr ⟨rfl, rfl⟩), if_neg (Bool.eq_false_iff.mp h)]

/-- What a statement does behind the name that it starts with. -/
def named (job : Job Mnemonic Mode Feature) (name : String) (span : Span) : Assemble Feature Unit := do
  if ← eatEquals then definition job name span else instruction job name span

/-- A name starts a definition or an instruction. -/
theorem optionalContent_of_name {name : String} (h : s.cursor.peek.lexeme = .identifier name) :
    optionalContent job s = named job name s.cursor.peek.span { s with cursor := s.cursor.next } := by
  have hStart : s.cursor.atStatementEnd = false := by
    simp [Cursor.atStatementEnd, h, Lexeme.endsStatement]
  rw [optionalContent_of_not_end hStart]
  unfold content
  rw [Action.bind_of_ok (advance_eq s), h]
  rfl

/-- There are no other statements. -/
theorem optionalContent_cases {u : Unit} (h : optionalContent job s = .ok u s') :
    s.cursor.atStatementEnd = true ∨ (∃ d, s.cursor.directive? = some d) ∨
      ∃ name, s.cursor.peek.lexeme = .identifier name := by
  cases hEnd : s.cursor.atStatementEnd with
  | true => exact .inl rfl
  | false =>
    rw [optionalContent_of_not_end hEnd] at h
    unfold content at h
    rw [Action.bind_of_ok (advance_eq s)] at h
    cases hLexeme : s.cursor.peek.lexeme with
    | identifier name => exact .inr (.inr ⟨name, rfl⟩)
    | mark m =>
      cases m with
      | period =>
        have hAt : s.cursor.isAt (.mark .period) = true := by
          rw [Cursor.isAt, hLexeme]
          rfl
        simp only [hLexeme] at h
        unfold directive at h
        rw [Action.bind_of_ok (advance_eq _)] at h
        refine .inr (.inl ?_)
        unfold Cursor.directive?
        rw [if_pos hAt, ← Cursor.peek_next]
        cases hName : s.cursor.next.peek.lexeme.name? with
        | none =>
          simp only [hName] at h
          exact absurd h Action.throw_ne_ok
        | some name =>
          cases hDirective : Directive.ofName? name with
          | none =>
            simp only [hName, hDirective] at h
            exact absurd h Action.throw_ne_ok
          | some d => exact ⟨d, hDirective⟩
      | _ =>
        simp only [hLexeme] at h
        exact absurd h Action.throw_ne_ok
    | _ =>
      simp only [hLexeme] at h
      exact absurd h Action.throw_ne_ok

end

end Success

-- --------
-- Reading
-- --------

section

variable {R : Assembly Feature → Assembly Feature → Prop}

theorem keeps_require [Std.Refl R] {α : Type} (r : Except Diagnostic α) : Keeps R (require r) := by
  cases r with
  | ok a => exact .pure a
  | error d => exact .throw d

variable [Trans R R R] {α : Type} {s : Assembly Feature}

theorem keeps_look [Std.Refl R] : Keeps R look := Keeps.get.bind fun _ => .pure _

/-- An action that looks at the cursor first. -/
theorem keepsAt_look_bind [Std.Refl R] {f : Cursor → Assemble Feature α}
    (h : KeepsAt R (f s.cursor) s) : KeepsAt R (look >>= f) s := by
  refine KeepsAt.bind (keeps_look s) ?_
  intro c s' hLook
  obtain ⟨rfl, rfl⟩ := look_eq_ok.mp hLook
  exact h

/-- An action that reads a token first. -/
theorem keepsAt_advance_bind {f : Token → Assemble Feature α}
    (hNext : R s { s with cursor := s.cursor.next })
    (h : KeepsAt R (f s.cursor.peek) { s with cursor := s.cursor.next }) :
    KeepsAt R (advance >>= f) s := by
  refine KeepsAt.bind hNext ?_
  intro t s' hAdvance
  obtain ⟨rfl, rfl⟩ := EStateM.Result.ok.inj ((advance_eq s).symm.trans hAdvance)
  exact h

/-- An action that moves the cursor first. -/
theorem keepsAt_moveTo_bind {f : Unit → Assemble Feature α} {c : Cursor}
    (hMove : R s { s with cursor := c }) (hf : Keeps R (f ())) : KeepsAt R (moveTo c >>= f) s :=
  KeepsAt.bind hMove fun _ s' _ => hf s'

/-- Whether the line ends behind the parts of a statement is looked at last, and changes nothing. -/
theorem after_parts [Std.Refl R] [DecidableEq Mode] [Flag Mode] [Flag Feature]
    (job : Job Mnemonic Mode Feature) (s : Assembly Feature) :
    R (Action.stateAfter (parts job s)) (Action.stateAfter (wholeStatement job s)) := by
  refine Keeps.after_bind (fun _ => keeps_look.bind fun c => ?_) _ _
  split
  · exact .pure _
  · exact .throw _

end

namespace AdmitsReading

variable {N : String → Prop} {R : Assembly Feature → Assembly Feature → Prop} [Std.Refl R] [Trans R R R]
  (hR : AdmitsReading N R) (job : Job Mnemonic Mode Feature)

include hR

theorem keeps_eat (m : Mark) : Keeps R (eat (.mark m)) := by
  intro s
  refine keepsAt_look_bind ?_
  split
  · next t c hEat =>
    exact keepsAt_moveTo_bind (hR.read (Cursor.reads_of_eat?_mark hEat)) (.pure true)
  · exact Keeps.pure false s

theorem keeps_eatWord (word : String) : Keeps R (eatWord word) := by
  intro s
  refine keepsAt_look_bind ?_
  split
  · next t c hEat =>
    exact keepsAt_moveTo_bind (hR.read (Cursor.reads_of_eatWord? hEat)) (.pure true)
  · exact Keeps.pure false s

theorem keeps_eatEquals : Keeps R eatEquals := by
  refine (hR.keeps_eat .equals).bind fun found => ?_
  split
  · exact .pure _
  · exact hR.keeps_eatWord "equ"

theorem keeps_expression : Keeps R (expression job) := by
  intro s
  refine KeepsAt.bind (Keeps.get s) ?_
  intro a s' hGet
  obtain ⟨rfl, rfl⟩ := Action.get_eq_ok.mp hGet
  dsimp only
  split
  · exact Keeps.throw _ s
  · exact Keeps.throw _ s
  · next e c hParse =>
    have hReads := Expr.reads_parse_inStatement _ 0 s.cursor e c (by rw [hParse])
    exact keepsAt_moveTo_bind (hR.read hReads) (.pure e)

theorem keeps_constant (kind : String) (low high : Value) :
    Keeps R (constant job kind low high) := by
  refine (hR.keeps_expression job).bind fun e => ?_
  split
  · exact .throw _
  · exact (keeps_require _).bind fun _ => .pure _

variable {name : String} (hName : N name) (span : Span)

include hName

omit [Trans R R R] in
theorem keeps_define (value : Expr) : Keeps R (Assembly.define name value span) := by
  intro s
  show R s (Action.stateAfter ((require _ >>= fun _ => _) s))
  cases hDefine : s.symbols.define name value span with
  | ok symbols => exact hR.define hName hDefine
  | error d => exact Std.Refl.refl s

theorem keeps_defineLabel : Keeps R (defineLabel name span) :=
  Keeps.get.bind fun _ => hR.keeps_define hName span _

theorem keeps_definition : Keeps R (definition job name span) :=
  (hR.keeps_expression job).bind fun e => hR.keeps_define hName span e

end AdmitsReading

-- --------
-- Writing
-- --------

namespace AdmitsWriting

variable [DecidableEq Mode] [Flag Mode] {N : String → Prop} {job : Job Mnemonic Mode Feature}
  {R : Assembly Feature → Assembly Feature → Prop} [Std.Refl R] [Trans R R R] (hR : AdmitsWriting N job R)

include hR

omit [Std.Refl R] [Trans R R R] in
theorem keeps_encode {α : Type} {act : Encode α} (hAct : Keeps Encoder.Grows act) :
    Keeps R (Assembly.encode act) := by
  intro s
  have hRun := hAct s.encoder
  show R s (Action.stateAfter (Assembly.encode act s))
  unfold Assembly.encode
  dsimp only
  split
  · next hOk =>
    rw [show act s.encoder = _ from hOk] at hRun
    exact hR.encode hRun
  · next hError =>
    rw [show act s.encoder = _ from hError] at hRun
    exact hR.encode hRun

-- --------
-- Directives
-- --------

omit [DecidableEq Mode] [Flag Mode] [Std.Refl R] [Trans R R R] hR in
theorem keeps_emitDatum (job : Job Mnemonic Mode Feature) (e : Expr) (w : Width) :
    Keeps Encoder.Grows (emitDatum job e w) := by
  unfold emitDatum
  split
  · exact Encoder.keeps_emitValue e w
  · split
    · exact Encoder.keeps_emitValue e w
    · exact (Encoder.keeps_report _ _).bind fun _ => Encoder.keeps_emitTruncated e w

theorem keeps_datum (w : Width) : Keeps R (datum job w) := by
  intro s
  refine keepsAt_look_bind ?_
  split
  · next text _ hText =>
    have hNext : s.cursor.Reads Lexeme.inStatement s.cursor.next := .next (by rw [hText]; rfl)
    exact keepsAt_moveTo_bind (hR.read hNext) (hR.keeps_encode (Encoder.keeps_emit _))
  · exact (hR.keeps_expression job).bind (fun e => hR.keeps_encode (keeps_emitDatum job e _)) s

theorem keeps_data (w : Width) (fuel : Nat) : Keeps R (data job w fuel) := by
  induction fuel with
  | zero => exact .pure _
  | succ fuel ih =>
    refine (hR.keeps_datum w).bind fun _ => (hR.keeps_eat .comma).bind fun more => ?_
    split
    · exact ih
    · exact .pure _

section Machine

variable (hMachine : ∀ (a : Assembly Feature) (machine), R a { a with machine })

include hMachine

omit [DecidableEq Mode] [Flag Mode] hR in
theorem keepsAt_selectCpu {s : Assembly Feature} (hNext : R s { s with cursor := s.cursor.next }) :
    KeepsAt R (selectCpu job) s := by
  refine keepsAt_advance_bind hNext ?_
  split
  · exact Keeps.throw _ _
  · split
    · exact Keeps.throw _ _
    · exact hMachine _ _

omit [DecidableEq Mode] [Flag Mode] hR in
theorem keepsAt_setSynthesis {s : Assembly Feature}
    (hNext : R s { s with cursor := s.cursor.next }) : KeepsAt R setSynthesis s := by
  refine keepsAt_advance_bind hNext ?_
  split
  · exact hMachine _ _
  · exact hMachine _ _
  · exact Keeps.throw _ _

end Machine

theorem keepsAt_carryOut {s : Assembly Feature} (span : Span) (d : Directive)
    (hOpen : d = .origin → ∀ a origin span, R a (a.opened origin span))
    (hMachine : d.setsMachine = true → ∀ (a : Assembly Feature) (machine), R a { a with machine })
    (hNext : d.takesWord = true → R s { s with cursor := s.cursor.next }) :
    KeepsAt R (carryOut job span d) s := by
  cases d with
  | origin =>
    have hRegion (origin : Value) : Keeps R (openRegion origin span : Assemble Feature Unit) :=
      .modify fun a => hOpen rfl a origin span
    exact (hR.keeps_constant job _ _ _).bind hRegion s
  | data w => exact keeps_look.bind (fun c => hR.keeps_data w _) s
  | cpu => exact keepsAt_selectCpu (hMachine rfl) (hNext rfl)
  | basePage =>
    exact (hR.keeps_constant job _ _ _).bind (fun _ => .modify fun a => hMachine rfl a _) s
  | synthesis => exact keepsAt_setSynthesis (hMachine rfl) (hNext rfl)

/-- A directive at its period. -/
theorem keepsAt_directive {s : Assembly Feature} (hPeriod : s.cursor.isAt (.mark .period) = true)
    (hOpen : atOrigin s.cursor = true → ∀ a origin span, R a (a.opened origin span))
    (hMachine : s.cursor.directive?.any Directive.setsMachine = true →
      ∀ (a : Assembly Feature) (machine), R a { a with machine })
    (hSkip : s.cursor.lacksWord = true → ∀ a : Assembly Feature, R a { a with cursor := a.cursor.next }) :
    KeepsAt R (directive job) { s with cursor := s.cursor.next } := by
  have hEither (a : Assembly Feature) (hEnd : a.cursor.peek.lexeme.endsStatement = true →
      s.cursor.lacksWord = true) : R a { a with cursor := a.cursor.next } := by
    cases hEnds : a.cursor.peek.lexeme.endsStatement with
    | true => exact hSkip (hEnd hEnds) a
    | false => exact hR.read (.next (by rw [Lexeme.inStatement, hEnds]; rfl))
  refine keepsAt_advance_bind (hEither _ fun hEnds => ?_) ?_
  · show s.cursor.lacksWord = true
    unfold Cursor.lacksWord
    rw [← Cursor.peek_next, hPeriod, hEnds]
    rfl
  · dsimp only
    split
    · exact Keeps.throw _ _
    · next name hName =>
      split
      · exact Keeps.throw _ _
      · next d hDirective =>
        have hHere : s.cursor.directive? = some d := by
          unfold Cursor.directive?
          rw [if_pos hPeriod, ← Cursor.peek_next, hName]
          exact hDirective
        refine hR.keepsAt_carryOut _ d ?_ ?_ ?_
        · rintro rfl
          exact hOpen ((Cursor.atOrigin_iff _).mpr hHere)
        · intro hSets
          refine hMachine ?_
          rw [hHere, Option.any_some, hSets]
        · intro hTakes
          refine hEither _ fun hEnds => ?_
          unfold Cursor.lacksWord
          rw [hHere, ← Cursor.peek_next_next, hPeriod, hEnds, Option.any_some, hTakes]
          simp

-- --------
-- Statements
-- --------

variable [Flag Feature]

omit [Std.Refl R] [Trans R R R] hR in
theorem keeps_encodeInstruction (F : Family Mnemonic Mode Feature) (site : Site Feature)
    (m : Mnemonic) (implied : Option Nat) (c : Cursor) :
    Keeps Encoder.Grows (encodeInstruction F site m implied c) := by
  refine (Encoder.keeps_dispatch F site m implied c).bind fun _ => Keeps.get.bind fun s => ?_
  split
  · exact (Encoder.keeps_report _ _).bind fun _ => .pure _
  · exact .pure _

theorem keeps_instruction (name : String) (span : Span) : Keeps R (instruction job name span) := by
  unfold instruction
  split
  · exact .throw _
  · next m implied hMnemonic =>
    intro s
    refine KeepsAt.bind (Keeps.get s) ?_
    intro a s₁ hGet
    obtain ⟨rfl, rfl⟩ := Action.get_eq_ok.mp hGet
    refine KeepsAt.bind (hR.keeps_encode (keeps_encodeInstruction job.family _ _ _ _) s) ?_
    intro c s₂ hEncode
    obtain ⟨e, hAct, rfl⟩ := encode_eq_ok hEncode
    obtain ⟨e₁, hDispatch, -⟩ := dispatch_of_encodeInstruction hAct
    obtain ⟨first, second, hOperands, -⟩ := Encoder.finish_of_dispatch hDispatch
    exact hR.operands (s := s.withEncoder e) hOperands

variable {s : Assembly Feature} (hName : ∀ name, s.cursor.peek.lexeme = .identifier name → N name)
  (hOpen : atOrigin s.cursor = true → ∀ a origin span, R a (a.opened origin span))
  (hMachine : s.cursor.directive?.any Directive.setsMachine = true →
    ∀ (a : Assembly Feature) (machine), R a { a with machine })
  (hSkip : s.cursor.lacksWord = true → ∀ a : Assembly Feature, R a { a with cursor := a.cursor.next })

include hName hOpen hMachine hSkip

theorem keepsAt_content (hStart : s.cursor.atStatementEnd = false) : KeepsAt R (content job) s := by
  have hNext : s.cursor.Reads Lexeme.inStatement s.cursor.next := by
    refine .next ?_
    rw [Lexeme.inStatement, show s.cursor.peek.lexeme.endsStatement = false from hStart]
    rfl
  refine keepsAt_advance_bind (hR.read hNext) ?_
  split
  · next hPeriod =>
    refine hR.keepsAt_directive ?_ hOpen hMachine hSkip
    rw [Cursor.isAt, hPeriod]
    rfl
  · next name hIdentifier =>
    refine hR.keeps_eatEquals.bind (fun found => ?_) _
    split
    · exact hR.keeps_definition job (hName name hIdentifier) _
    · exact hR.keeps_instruction _ _
  · exact Keeps.throw _ _

theorem keepsAt_optionalContent : KeepsAt R (optionalContent job) s := by
  refine keepsAt_look_bind ?_
  split
  · exact Keeps.pure _ s
  · next hStart => exact hR.keepsAt_content hName hOpen hMachine hSkip (Bool.eq_false_iff.mpr hStart)

omit hName hOpen hMachine hSkip

/-- **What a statement does**, it does in steps that the relation admits. Opening a region is one of them
where `.org` stands, changing the machine where a directive does so, and reading over the end of a line where
a directive lacks its word. -/
theorem wholeStatement (hNames : s.cursor.NamesIn N)
    (hOpen : atOrigin s.cursor.behindLabel = true → ∀ a origin span, R a (a.opened origin span))
    (hMachine : s.cursor.behindLabel.directive?.any Directive.setsMachine = true →
      ∀ (a : Assembly Feature) (machine), R a { a with machine })
    (hSkip : s.cursor.behindLabel.lacksWord = true →
      ∀ a : Assembly Feature, R a { a with cursor := a.cursor.next }) :
    KeepsAt R (wholeStatement job) s := by
  have hLabel : R s { s with cursor := s.cursor.behindLabel } := hR.read s.cursor.reads_behindLabel
  have hName := hNames.behindLabel.peek
  have hRest : R { s with cursor := s.cursor.behindLabel } (Action.stateAfter (parts job s)) := by
    rw [parts_eq]
    split
    · exact hR.keepsAt_optionalContent hName hOpen hMachine hSkip
    · next name span hFound =>
      have hLabelName : N name := hNames.label? hFound
      split
      · exact KeepsAt.bind (hR.keepsAt_optionalContent hName hOpen hMachine hSkip)
          fun _ s' _ => hR.keeps_defineLabel hLabelName span s'
      · refine KeepsAt.bind (hR.keeps_defineLabel hLabelName span _) ?_
        intro _ s' hDefine
        obtain ⟨symbols, -, rfl⟩ := defineLabel_eq_ok.mp hDefine
        exact hR.keepsAt_optionalContent hName hOpen hMachine hSkip
  have hParts : R s (Action.stateAfter (parts job s)) := Trans.trans hLabel hRest
  have hLast : R (Action.stateAfter (parts job s))
      (Action.stateAfter (Assembly.wholeStatement job s)) := after_parts job s
  show R s (Action.stateAfter (Assembly.wholeStatement job s))
  exact Trans.trans hParts hLast

end AdmitsWriting

namespace Admits

variable [DecidableEq Mode] [Flag Mode] [Flag Feature] {job : Job Mnemonic Mode Feature}
  {R : Assembly Feature → Assembly Feature → Prop} [Std.Refl R] [Trans R R R] (hR : Admits job R)
  {s : Assembly Feature}

include hR

theorem keepsAt_optionalContent
    (hOpen : atOrigin s.cursor = true → ∀ a origin span, R a (a.opened origin span))
    (hSkip : s.cursor.lacksWord = true → ∀ a : Assembly Feature, R a { a with cursor := a.cursor.next }) :
    KeepsAt R (optionalContent job) s :=
  hR.toAdmitsWriting.keepsAt_optionalContent (fun _ _ => trivial) hOpen (fun _ => hR.machine) hSkip

theorem wholeStatement
    (hOpen : atOrigin s.cursor.behindLabel = true → ∀ a origin span, R a (a.opened origin span))
    (hSkip : s.cursor.behindLabel.lacksWord = true →
      ∀ a : Assembly Feature, R a { a with cursor := a.cursor.next }) :
    KeepsAt R (wholeStatement job) s :=
  hR.toAdmitsWriting.wholeStatement (.any s.cursor) hOpen (fun _ => hR.machine) hSkip

end Admits

end Assembly

end CrossAsm
