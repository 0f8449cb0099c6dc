import CrossAsm.Assembler
import CrossAsm.Proofs.Encoder.Likeness
import CrossAsm.Proofs.Mos65.Likeness
import CrossAsm.Proofs.Reading.Operand
import CrossAsm.Proofs.Z80.Likeness

/-!
# CrossAsm — runs that are alike

Two runs over corresponding tokens go through corresponding states: they have the same machine, the same bytes and
the same listing. Statements that fail in one run fail in the other, with corresponding errors. There is one lemma
for each action of a statement, then one for a statement, one for a step and one for a whole run.

* `Assembly.Like` — states that correspond.
* `Assembly.steps_like` — a whole run.
* `Assembled.Like`, `Family.assemble_like` — what two runs leave.
-/

namespace CrossAsm

variable {L : Likeness} {Mnemonic Mode Feature : Type}

/-- The same family and policy, for runs in which names are defined. Tokens that start at corresponding offsets are on
the same line. -/
structure Job.Like (L : Likeness) (job job' : Job Mnemonic Mode Feature) : Prop where
  family : job.family = job'.family
  respects : job'.family.Respects L
  defines : L.defines
  policy : job.policy = job'.policy
  line   : ∀ {a b}, L.starts a b → job.lineAt a = job'.lineAt b

namespace Assembly

/-- States of two runs that correspond. -/
structure Like (L : Likeness) (s s' : Assembly Feature) : Prop where
  machine  : s.machine = s'.machine
  earlier  : List.Forall₂ (Region.Like L) s.earlier s'.earlier
  current  : s.current.Like L s'.current
  symbols  : s.symbols.Like L s'.symbols
  listing  : s.listing = s'.listing
  errors   : L.Reports s.errors s'.errors
  reported : L.Reports s.reported s'.reported
  cursor   : s.cursor.Like L s'.cursor

/-- Actions of two runs that are alike. -/
abbrev ActsAlike {α α' : Type} (L : Likeness) (A : α → α' → Prop) (x : Assemble Feature α) (y : Assemble Feature α') :
    Prop :=
  Action.Like L (Like L) A x y

namespace Like

variable {s s' : Assembly Feature}

theorem withCursor (h : Like L s s') {c c' : Cursor} (hc : c.Like L c') :
    Like L { s with cursor := c } { s' with cursor := c' } :=
  ⟨h.machine, h.earlier, h.current, h.symbols, h.listing, h.errors, h.reported, hc⟩

theorem withMachine (h : Like L s s') (f : Machine Feature → Machine Feature) :
    Like L { s with machine := f s.machine } { s' with machine := f s'.machine } :=
  ⟨congrArg f h.machine, h.earlier, h.current, h.symbols, h.listing, h.errors, h.reported, h.cursor⟩

theorem withSymbols (h : Like L s s') {t t' : SymbolTable} (ht : t.Like L t') :
    Like L { s with symbols := t } { s' with symbols := t' } :=
  ⟨h.machine, h.earlier, h.current, ht, h.listing, h.errors, h.reported, h.cursor⟩

theorem regionIndex_eq (h : Like L s s') : s.regionIndex = s'.regionIndex := h.earlier.length_eq

theorem regions (h : Like L s s') : List.Forall₂ (Region.Like L) s.regions s'.regions :=
  List.rel_append h.earlier (.cons h.current .nil)

end Like

-- --------
-- Reading
-- --------

theorem look_like : ActsAlike L (Cursor.Like L) (look : Assemble Feature Cursor) look :=
  Action.Like.get.bind fun _ _ hs => .pure hs.cursor

theorem moveTo_like {c c' : Cursor} (hc : c.Like L c') :
    ActsAlike L Eq (moveTo c : Assemble Feature Unit) (moveTo c') := .modify fun _ _ hs => hs.withCursor hc

theorem advance_like : ActsAlike L (Token.Like L) (advance : Assemble Feature Token) advance :=
  look_like.bind fun _ _ hc => (moveTo_like hc.next).bind fun _ _ _ => .pure hc.peek

theorem eat_like (k : Kind) : ActsAlike L Eq (eat k : Assemble Feature Bool) (eat k) := by
  refine look_like.bind fun c c' hc => ?_
  rcases rel_cases (hc.eat? k) with ⟨hx, hx'⟩ | ⟨found, found', hx, hx', hFound⟩
  · rw [hx, hx']
    exact .pure rfl
  · rw [hx, hx']
    exact (moveTo_like hFound.2).bind fun _ _ _ => .pure rfl

theorem eatWord_like (word : String) : ActsAlike L Eq (eatWord word : Assemble Feature Bool) (eatWord word) := by
  refine look_like.bind fun c c' hc => ?_
  rcases rel_cases (hc.eatWord? word) with ⟨hx, hx'⟩ | ⟨found, found', hx, hx', hFound⟩
  · rw [hx, hx']
    exact .pure rfl
  · rw [hx, hx']
    exact (moveTo_like hFound.2).bind fun _ _ _ => .pure rfl

theorem eatEquals_like : ActsAlike L Eq (eatEquals : Assemble Feature Bool) eatEquals := by
  refine (eat_like _).bind fun found found' hFound => ?_
  subst hFound
  split
  · exact .pure rfl
  · exact eatWord_like _

theorem unexpected_like {α α' : Type} {A : α → α' → Prop} (expected : String) {t t' : Token} (ht : t.Like L t') :
    ActsAlike L A (unexpected expected t : Assemble Feature α) (unexpected expected t' : Assemble Feature α') := by
  refine .throw (.of_place ht.span rfl rfl rfl fun hText => ?_)
  rw [ht.lexeme.describe_eq hText]
  rfl

theorem require_like {α α' : Type} {A : α → α' → Prop} {r : Except Diagnostic α} {r' : Except Diagnostic α'}
    (h : L.Results A r r') : ActsAlike L A (require r : Assemble Feature α) (require r') := by
  cases h with
  | ok h => exact .pure h
  | error h => exact .throw h

section Expressions

variable {job job' : Job Mnemonic Mode Feature} (hJob : job.Like L job')

include hJob

theorem expression_like : ActsAlike L (Expr.Like L) (expression job) (expression job') := by
  refine Action.Like.get.bind fun s t hs => ?_
  have hLocation := hs.cursor.peek.span
  have hScope : Scope.Like L ⟨s.symbols, s.current.output.positionExpr s.cursor.peek.span, job.family.isReserved⟩
      ⟨t.symbols, t.current.output.positionExpr t.cursor.peek.span, job'.family.isReserved⟩ := by
    refine ⟨hs.symbols.lookup_eq, hs.current.output.positionExpr hLocation, fun hName => ?_⟩
    rw [hJob.family]
    exact hJob.respects.reserved (L.lower_eq hName)
  dsimp only
  rcases (Expr.parse_like hScope 0 _ _ hs.cursor).cases with
    ⟨problems, problems', hRun, hRun', hProblems⟩ | ⟨e, e', c, c', problems, problems', hRun, hRun', he, hc, hProblems⟩
  · rw [hRun, hRun']
    cases hProblems with
    | nil => exact .throw (.of_place hLocation rfl rfl rfl fun _ => rfl)
    | cons hd _ => exact .throw hd
  · rw [hRun, hRun']
    cases hProblems with
    | nil => exact (moveTo_like hc).bind fun _ _ _ => .pure he
    | cons hd _ => exact .throw hd

theorem constant_like (kind : String) (low high : Value) :
    ActsAlike L Eq (constant job kind low high) (constant job' kind low high) := by
  refine (expression_like hJob).bind fun e e' he => ?_
  rw [he.value?_eq]
  split
  · exact .throw (.of_place he.span rfl rfl rfl fun hText => by rw [he.text_eq hText]; rfl)
  · exact (require_like (he.checkRange low high)).bind fun _ _ _ => .pure rfl

end Expressions

-- --------
-- Writing
-- --------

theorem encode_like {α α' : Type} {A : α → α' → Prop} {act : Encode α} {act' : Encode α'}
    (h : Encoder.ActsAlike L A act act') : ActsAlike L A (encode act : Assemble Feature α) (encode act') := by
  intro s t hs
  have hEncoder : Encoder.Like L { output := s.current.output, symbols := s.symbols, reported := s.reported }
      { output := t.current.output, symbols := t.symbols, reported := t.reported } :=
    ⟨hs.current.output, hs.symbols, hs.reported, rfl, rfl⟩
  have hKept {e e' : Encoder} (he : e.Like L e') :
      Like L
        { s with current := { s.current with output := e.output }, symbols := e.symbols, reported := e.reported }
        { t with current := { t.current with output := e'.output }, symbols := e'.symbols, reported := e'.reported } :=
    ⟨hs.machine, hs.earlier, ⟨he.output, hs.current.span⟩, he.symbols, hs.listing, hs.errors, he.reported, hs.cursor⟩
  unfold encode
  rcases (h _ _ hEncoder).cases with ⟨a, a', e, e', hRun, hRun', ha, he⟩ | ⟨d, d', e, e', hFail, hFail', hd, he⟩
  · rw [hRun, hRun']
    exact .ok ha (hKept he)
  · rw [hFail, hFail']
    exact .error hd (hKept he)

theorem define_like (hDefines : L.defines) {name name' : String} (hName : L.names name name') {value value' : Expr}
    (hValue : value.Like L value') {p p' : Span} (hp : L.spans p p') :
    ActsAlike L Eq (define name value p : Assemble Feature Unit) (define name' value' p') :=
  Action.Like.get.bind fun _ _ hs => (require_like (hs.symbols.define hDefines hName hValue hp)).bind fun _ _ hSymbols =>
    .set (hs.withSymbols hSymbols)

theorem defineLabel_like (hDefines : L.defines) {name name' : String} (hName : L.names name name') {p p' : Span}
    (hp : L.spans p p') :
    ActsAlike L Eq (defineLabel name p : Assemble Feature Unit) (defineLabel name' p') :=
  Action.Like.get.bind fun _ _ hs => define_like hDefines hName (hs.current.output.positionExpr hp) hp

theorem openRegion_like (origin : Value) {p p' : Span} (hp : L.spans p p') :
    ActsAlike L Eq (openRegion origin p : Assemble Feature Unit) (openRegion origin p') := by
  refine .modify fun s t hs => ?_
  rw [hs.current.output.isEmpty_eq]
  split
  · exact ⟨hs.machine, hs.earlier, ⟨hs.current.output.setOrigin origin, hp⟩, hs.symbols, hs.listing, hs.errors,
      hs.reported, hs.cursor⟩
  · exact ⟨hs.machine, List.rel_append hs.earlier (.cons hs.current .nil), ⟨⟨rfl, by simp, rfl, .nil⟩, hp⟩, hs.symbols,
      hs.listing, hs.errors, hs.reported, hs.cursor⟩

theorem rollback_like {s t : Assembly Feature} (hs : s.Like L t) (region : Nat) (c : Section.Checkpoint) :
    (s.rollback region c).Like L (t.rollback region c) := by
  have hBack {r r' : Region} (hr : r.Like L r') : Region.Like L { r with output := r.output.rollback c }
      { r' with output := r'.output.rollback c } := ⟨hr.output.rollback c, hr.span⟩
  have hModify {rs rs' : List Region} (h : List.Forall₂ (Region.Like L) rs rs') (n : Nat) :
      List.Forall₂ (Region.Like L) (rs.modify n fun r => { r with output := r.output.rollback c })
        (rs'.modify n fun r => { r with output := r.output.rollback c }) := by
    induction h generalizing n with
    | nil =>
      rw [List.modify_nil]
      exact .nil
    | cons hr hRest ih =>
      cases n with
      | zero => exact .cons (hBack hr) hRest
      | succ n => exact .cons hr (ih n)
  unfold rollback
  dsimp only
  rw [hs.regionIndex_eq]
  split
  · exact ⟨hs.machine, hs.earlier, hBack hs.current, hs.symbols, hs.listing, hs.errors, hs.reported, hs.cursor⟩
  · exact ⟨hs.machine, hModify hs.earlier region, hs.current, hs.symbols, hs.listing, hs.errors, hs.reported, hs.cursor⟩

-- --------
-- Directives
-- --------

section Directives

variable {job job' : Job Mnemonic Mode Feature} (hJob : job.Like L job')

include hJob

theorem emitDatum_like {e e' : Expr} (he : e.Like L e') (w : Width) :
    Encoder.ActsAlike L Eq (emitDatum job e w) (emitDatum job' e' w) := by
  unfold emitDatum
  rw [he.value?_eq, hJob.policy]
  split
  · exact Encoder.emitValue_like he w
  · split
    · exact Encoder.emitValue_like he w
    · exact .bind (Encoder.report_like _ (.of_place he.span rfl rfl rfl fun _ => rfl)) fun _ _ _ =>
        Encoder.emitTruncated_like he w

/-- A text is put out as it is, and everything else is a value. -/
theorem datum_like (w : Width) : ActsAlike L Eq (datum job w) (datum job' w) := by
  have hValue : ActsAlike L Eq (do let e ← expression job; encode (emitDatum job e w))
      (do let e ← expression job'; encode (emitDatum job' e w)) :=
    (expression_like hJob).bind fun _ _ he => encode_like (emitDatum_like hJob he w)
  refine look_like.bind fun c c' hc => ?_
  have hLexeme := hc.peek.lexeme
  generalize c.peek.lexeme = lexeme at hLexeme
  generalize c'.peek.lexeme = lexeme' at hLexeme
  cases hLexeme with
  | identifier _ => exact hValue
  | same _ =>
    split
    · exact (moveTo_like hc.next).bind fun _ _ _ => encode_like (Encoder.emit_like _)
    · exact hValue

theorem data_like (w : Width) (fuel : Nat) : ActsAlike L Eq (data job w fuel) (data job' w fuel) := by
  induction fuel with
  | zero => exact .pure rfl
  | succ fuel ih =>
    refine (datum_like hJob w).bind fun _ _ _ => (eat_like _).bind fun more more' hMore => ?_
    subst hMore
    split
    · exact ih
    · exact .pure rfl

omit hJob in
/-- Names of CPUs that are the same but for the letter case of a word. -/
theorem cpuName?_like {l l' : Lexeme} (h : l.Like L l') :
    Option.Rel (fun a b => Text.lower a = Text.lower b ∧ (L.verbatim → a = b)) (cpuName? l) (cpuName? l') := by
  cases h with
  | identifier h => exact .some ⟨L.lower_eq h, fun hText => L.eq_of_verbatim hText h⟩
  | same _ =>
    cases cpuName? l with
    | none => exact .none
    | some name => exact .some ⟨rfl, fun _ => rfl⟩

theorem selectCpu_like : ActsAlike L Eq (selectCpu job) (selectCpu job') := by
  refine advance_like.bind fun t t' ht => ?_
  rcases rel_cases (cpuName?_like ht.lexeme) with ⟨hx, hx'⟩ | ⟨name, name', hx, hx', hLower, hSame⟩
  · rw [hx, hx']
    exact unexpected_like _ ht
  · rw [hx, hx']
    dsimp only
    rw [hJob.family, hJob.respects.cpu hLower]
    split
    · exact .throw (.of_place ht.span rfl rfl rfl fun hText => by rw [hSame hText]; rfl)
    · next features _ => exact .modify fun _ _ hs => hs.withMachine fun machine => { machine with features }

omit hJob in
theorem setSynthesis_like : ActsAlike L Eq (setSynthesis : Assemble Feature Unit) setSynthesis := by
  refine advance_like.bind fun t t' ht => ?_
  have hWord : t.lexeme.name?.map Text.lower = t'.lexeme.name?.map Text.lower := by
    rcases rel_cases ht.lexeme.name? with ⟨hx, hx'⟩ | ⟨name, name', hx, hx', hName⟩
    · rw [hx, hx']
    · rw [hx, hx']
      exact congrArg some (L.lower_eq hName)
  have hSwitch (on : Bool) : ActsAlike L Eq
      (modify fun s : Assembly Feature => { s with machine := { s.machine with synthesis := on } })
      (modify fun s : Assembly Feature => { s with machine := { s.machine with synthesis := on } }) :=
    .modify fun _ _ hs => hs.withMachine fun machine => { machine with synthesis := on }
  rw [hWord]
  split
  · exact hSwitch true
  · exact hSwitch false
  · exact unexpected_like _ ht

theorem carryOut_like {p p' : Span} (hp : L.spans p p') (d : Directive) :
    ActsAlike L Eq (carryOut job p d) (carryOut job' p' d) := by
  cases d with
  | origin =>
    unfold carryOut
    rw [hJob.family]
    exact (constant_like hJob _ _ _).bind fun _ _ hOrigin => hOrigin ▸ openRegion_like _ hp
  | data w =>
    refine look_like.bind fun c c' hc => ?_
    rw [hc.rest.length_eq]
    exact data_like hJob w _
  | cpu => exact selectCpu_like hJob
  | basePage =>
    refine (constant_like hJob _ _ _).bind fun basePage basePage' hPage => ?_
    subst hPage
    exact .modify fun _ _ hs => hs.withMachine fun machine => { machine with basePage }
  | synthesis => exact setSynthesis_like

theorem directive_like : ActsAlike L Eq (directive job) (directive job') := by
  refine advance_like.bind fun t t' ht => ?_
  rcases rel_cases ht.lexeme.name? with ⟨hx, hx'⟩ | ⟨name, name', hx, hx', hName⟩
  · rw [hx, hx']
    exact unexpected_like _ ht
  · have hDirective : Directive.ofName? name = Directive.ofName? name' := by
      unfold Directive.ofName?
      rw [L.lower_eq hName]
    rw [hx, hx']
    dsimp only
    rw [hDirective]
    split
    · exact .throw (.of_place ht.span rfl rfl rfl fun hText => by rw [L.eq_of_verbatim hText hName]; rfl)
    · exact carryOut_like hJob ht.span _

end Directives

-- --------
-- Statements
-- --------

/-- A label is there in both runs or in none. -/
theorem label_like : ActsAlike L (Option.Rel fun l l' => L.names l.1 l'.1 ∧ L.spans l.2 l'.2)
    (label : Assemble Feature (Option (String × Span))) label := by
  refine look_like.bind fun c c' hc => ?_
  have hLexeme := hc.peek.lexeme
  have hColon := hc.next.eat? (.mark .colon)
  generalize c.peek.lexeme = lexeme at hLexeme
  generalize c'.peek.lexeme = lexeme' at hLexeme
  generalize c.next.eat? (.mark .colon) = colon at hColon
  generalize c'.next.eat? (.mark .colon) = colon' at hColon
  cases hLexeme with
  | identifier hName =>
    cases hColon with
    | none => exact .pure Option.Rel.none
    | some hFound => exact (moveTo_like hFound.2).bind fun _ _ _ => .pure (Option.Rel.some ⟨hName, hc.peek.span⟩)
  | @same lexeme hNone =>
    cases lexeme with
    | identifier name => cases hNone
    | _ => exact .pure Option.Rel.none

theorem atOrigin_eq {c c' : Cursor} (hc : c.Like L c') : atOrigin c = atOrigin c' := by
  unfold atOrigin
  rw [hc.isAt_eq]
  rcases rel_cases hc.peekAt_one.lexeme.name? with ⟨hx, hx'⟩ | ⟨name, name', hx, hx', hName⟩
  · rw [hx, hx']
  · rw [hx, hx']
    dsimp only
    rw [Text.sameWord_eq hName]

section Statements

variable [DecidableEq Mode] [Flag Mode] [Flag Feature]

theorem encodeInstruction_like {F : Family Mnemonic Mode Feature} (hF : F.Respects L) (hDefines : L.defines)
    {site site' : Site Feature} (hSite : site.Like L site') (m : Mnemonic) (implied : Option Nat) {c c' : Cursor}
    (hc : c.Like L c') : Encoder.ActsAlike L (Cursor.Like L) (encodeInstruction F site m implied c)
      (encodeInstruction F site' m implied c') := by
  refine (Encoder.dispatch_like hF hDefines hSite m implied hc).bind fun d d' hd => Action.Like.get.bind fun s t hs => ?_
  dsimp only
  rw [hs.synthesized, hs.instructions, hSite.policy]
  split
  · exact .bind (Encoder.report_like _ (.of_place hSite.span rfl rfl rfl fun _ => rfl)) fun _ _ _ => .pure hd
  · exact .pure hd

variable {job job' : Job Mnemonic Mode Feature} (hJob : job.Like L job')

include hJob

theorem instruction_like {name name' : String} (hName : L.names name name') {p p' : Span} (hp : L.spans p p') :
    ActsAlike L Eq (instruction job name p) (instruction job' name' p') := by
  unfold instruction
  rw [hJob.family, hJob.respects.mnemonic (L.lower_eq hName), hJob.policy]
  split
  · exact .throw (.of_place hp rfl rfl rfl fun hText => by rw [L.eq_of_verbatim hText hName]; rfl)
  · next m implied _ =>
    refine Action.Like.get.bind fun s t hs => ?_
    have hSite : Site.Like L ⟨s.machine, job'.policy, p.through s.cursor.statementSpan⟩
        ⟨t.machine, job'.policy, p'.through t.cursor.statementSpan⟩ :=
      ⟨hs.machine, rfl, L.through hp hs.cursor.statementSpan⟩
    exact (encode_like (encodeInstruction_like hJob.respects hJob.defines hSite m implied hs.cursor)).bind fun _ _ hc =>
      moveTo_like hc

omit [DecidableEq Mode] [Flag Mode] [Flag Feature] in
theorem definition_like {name name' : String} (hName : L.names name name') {p p' : Span} (hp : L.spans p p') :
    ActsAlike L Eq (definition job name p) (definition job' name' p') :=
  (expression_like hJob).bind fun _ _ he => define_like hJob.defines hName he hp

theorem content_like : ActsAlike L Eq (content job) (content job') := by
  refine advance_like.bind fun t t' ht => ?_
  have hLexeme := ht.lexeme
  obtain ⟨lexeme, p⟩ := t
  obtain ⟨lexeme', p'⟩ := t'
  dsimp only at hLexeme ⊢
  cases hLexeme with
  | identifier hName =>
    refine eatEquals_like.bind fun found found' hFound => ?_
    subst hFound
    split
    · exact definition_like hJob hName ht.span
    · exact instruction_like hJob hName ht.span
  | same hNone =>
    split
    · exact directive_like hJob
    · cases hNone
    · exact unexpected_like _ ht

theorem optionalContent_like : ActsAlike L Eq (optionalContent job) (optionalContent job') := by
  refine look_like.bind fun c c' hc => ?_
  rw [hc.atStatementEnd_eq]
  split
  · exact .pure rfl
  · exact content_like hJob

theorem parts_like : ActsAlike L Eq (parts job) (parts job') := by
  refine label_like.bind fun l l' hLabel => ?_
  cases hLabel with
  | none => exact optionalContent_like hJob
  | some hLabel =>
    obtain ⟨hName, hp⟩ := hLabel
    refine look_like.bind fun c c' hc => ?_
    rw [atOrigin_eq hc]
    split
    · exact (optionalContent_like hJob).bind fun _ _ _ => defineLabel_like hJob.defines hName hp
    · exact (defineLabel_like hJob.defines hName hp).bind fun _ _ _ => optionalContent_like hJob

theorem wholeStatement_like : ActsAlike L Eq (wholeStatement job) (wholeStatement job') := by
  refine (parts_like hJob).bind fun _ _ _ => look_like.bind fun c c' hc => ?_
  rw [hc.atStatementEnd_eq]
  split
  · exact .pure rfl
  · exact .throw (.of_place hc.statementSpan rfl rfl rfl fun _ => rfl)

/-- **A statement** gets through in both runs or fails in both. -/
theorem statement_like {s t : Assembly Feature} (hs : s.Like L t) : (statement job s).Like L (statement job' t) := by
  have hLine := hJob.line hs.cursor.peek.start
  unfold statement
  dsimp only
  rcases (wholeStatement_like hJob s t hs).cases with
    ⟨⟨⟩, ⟨⟩, s', t', hRun, hRun', -, hs'⟩ | ⟨d, d', s', t', hFail, hFail', hd, hs'⟩
  · rw [hRun, hRun']
    dsimp only
    rw [hs'.regionIndex_eq, hs.regionIndex_eq, hs.current.output.size_eq, hs'.current.output.size_eq, hLine,
      hs'.listing]
    exact ⟨hs'.machine, hs'.earlier, hs'.current, hs'.symbols, rfl, hs'.errors, hs'.reported, hs'.cursor⟩
  · rw [hFail, hFail']
    dsimp only
    rw [hs.regionIndex_eq, hs.current.output.checkpoint_eq]
    have hBack := rollback_like hs' t.regionIndex t.current.output.checkpoint
    exact ⟨hBack.machine, hBack.earlier, hBack.current, hBack.symbols, hBack.listing,
      List.rel_append hBack.errors (.cons hd .nil), hBack.reported, hBack.cursor.skipStatement⟩

theorem step_like {s t : Assembly Feature} (hs : s.Like L t) : (step job s).Like L (step job' t) := by
  unfold step
  rcases rel_cases (hs.cursor.eat? .newline) with ⟨hx, hx'⟩ | ⟨found, found', hx, hx', hFound⟩
  · rw [hx, hx']
    exact statement_like hJob hs
  · rw [hx, hx']
    exact hs.withCursor hFound.2

/-- **A whole run** goes through corresponding states. -/
theorem steps_like (n : Nat) {s t : Assembly Feature} (hs : s.Like L t) :
    (steps job n s).Like L (steps job' n t) := by
  induction n generalizing s t with
  | zero => exact hs
  | succ n ih =>
    unfold steps
    rw [hs.cursor.isExhausted_eq]
    split
    · exact hs
    · exact ih (step_like hJob hs)

end Statements

end Assembly

-- --------
-- Sources
-- --------

/-- What two runs leave corresponds. -/
structure Assembled.Like (L : Likeness) (a a' : Assembled) : Prop where
  result   : Alike (Failure.Like L) (Program.Like L) a.result a'.result
  reported : L.Reports a.reported a'.reported

theorem Assembly.finish_like {s t : Assembly Feature} (hs : s.Like L t) : s.finish.Like L t.finish := by
  refine ⟨?_, hs.reported⟩
  have hErrors := hs.errors
  unfold finish
  dsimp only
  generalize s.errors = errors at hErrors
  generalize t.errors = errors' at hErrors
  cases hErrors with
  | nil => exact .ok ⟨hs.regions, hs.symbols, hs.listing⟩
  | cons hd hMore => exact .error (.collected (.cons hd hMore))

/-- Sources with corresponding tokens on the same lines, where names may be defined. -/
structure Likeness.Sources (L : Likeness) (source source' : String) : Prop where
  scanned : L.Results (List.Forall₂ (Token.Like L)) (Token.scan source) (Token.scan source')
  stop    : Token.Like L ⟨.endOfInput, ⟨source.utf8ByteSize, 0⟩⟩ ⟨.endOfInput, ⟨source'.utf8ByteSize, 0⟩⟩
  defines : L.defines
  line    : ∀ {a b}, L.starts a b →
    (newlineOffsets 0 source.toList).countP (· < a) = (newlineOffsets 0 source'.toList).countP (· < b)

theorem Family.Shipped.respects {F : Family Mnemonic Mode Feature} (hF : F.Shipped) (L : Likeness) : F.Respects L := by
  cases hF with
  | mos65 => exact Mos65.family_respects L
  | z80 => exact Z80.family_respects L

/-- **Sources that are alike** are assembled to what corresponds. -/
theorem Family.assemble_like [DecidableEq Mode] [Flag Mode] [Flag Feature] {F : Family Mnemonic Mode Feature}
    (hF : F.Respects L) (hFree : L.relocatable) (machine : Machine Feature) (policy : Policy) {source source' : String}
    (h : L.Sources source source') : (F.assemble machine policy source).Like L (F.assemble machine policy source') := by
  unfold assemble
  rcases h.scanned.cases with ⟨tokens, tokens', hScan, hScan', hTokens⟩ | ⟨d, d', hFail, hFail', hd⟩
  · have hJob : Job.Like L ⟨F, policy, newlineOffsets 0 source.toList⟩ ⟨F, policy, newlineOffsets 0 source'.toList⟩ :=
      ⟨rfl, hF, h.defines, rfl, fun hStart => congrArg (1 + ·) (h.line hStart)⟩
    have hStart : Assembly.Like L { machine, cursor := ⟨tokens, source.utf8ByteSize⟩ }
        { machine, cursor := ⟨tokens', source'.utf8ByteSize⟩ } :=
      ⟨rfl, .nil, ⟨⟨rfl, fun _ => hFree, rfl, .nil⟩, L.zero⟩, ⟨.nil, rfl⟩, rfl, .nil, .nil, ⟨hTokens, h.stop⟩⟩
    rw [hScan, hScan']
    dsimp only
    rw [hTokens.length_eq]
    exact Assembly.finish_like (Assembly.steps_like hJob _ hStart)
  · rw [hFail, hFail']
    exact ⟨.error (.single hd), .nil⟩

end CrossAsm
