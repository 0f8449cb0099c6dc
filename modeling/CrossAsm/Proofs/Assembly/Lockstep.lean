import CrossAsm.Proofs.Assembly.Line
import CrossAsm.Proofs.Encoder.Lockstep

/-!
# CrossAsm — two runs over the same source

The same source is assembled twice, for machines and under policies that may differ. A `Comparison` says in
which respects they may, what that makes of the diagnostics that both runs report, and why the second run may
fail where the first one goes on. If the first run leaves a program, then the second one leaves the same, or its
first error is one for which the reports of the first run account (`Comparison.assemble`).

The proof goes through all actions of a statement in both runs at once. There is one lemma for each action, up
to `repeatsAt_wholeStatement`, and then one for a step and one for a whole run.
-/

namespace CrossAsm

open CrossAsm.Action (Lockstep LockstepAt Keeps KeepsAt)

-- --------
-- What is compared
-- --------

/-- What becomes of a diagnostic that the first run reports: the second one reports it or leaves it out, so that
the reports compare as before, or throws it. -/
def Policy.Compares (policy policy' : Policy) (reports : List Diagnostic → List Diagnostic → Prop)
    (excuses : Diagnostic → List Diagnostic → Prop) (d : Diagnostic) : Prop :=
  ∀ reported reported' new, reports reported reported' → policy.judge d = .ok new →
    (∃ new', policy'.judge d = .ok new' ∧ reports (reported ++ new) (reported' ++ new')) ∨
      policy'.judge d = .error d ∧ excuses d (reported ++ new)

/-- How two runs compare of which one has the policy `policy` and the other one has `policy'`. -/
structure Comparison (policy policy' : Policy) where
  /-- Whether synthesis is on in the first and in the second run. -/
  switches : Bool → Bool → Prop
  /-- What the two runs have reported. -/
  reports : List Diagnostic → List Diagnostic → Prop
  /-- The errors for which the reports of the first run account. -/
  excuses : Diagnostic → List Diagnostic → Prop
  reports_nil : reports [] []
  excuses_mono : ∀ {d reported reported'}, excuses d reported → reported <+: reported' → excuses d reported'
  compares_tooLarge : ∀ v bits span, policy.Compares policy' reports excuses (.valueTooLarge v bits span)
  compares_synthesized : switches true true →
    ∀ name count span, policy.Compares policy' reports excuses (.synthesized name count span)
  /-- What is synthesized in the first run only leaves a report that accounts for any error. -/
  excuses_synthesized : switches true false →
    ∀ d reported new name count span, policy.judge (.synthesized name count span) = .ok new →
      excuses d (reported ++ new)

namespace Comparison

variable {Mnemonic Mode Feature : Type} {policy policy' : Policy} (C : Comparison policy policy')
  (F : Family Mnemonic Mode Feature)

/-- The second machine encodes what the first one does, and synthesis is on as it may be. -/
structure Machines (machine machine' : Machine Feature) : Prop where
  features  : F.Widens machine.features machine'.features
  basePage  : machine'.basePage = machine.basePage
  synthesis : C.switches machine.synthesis machine'.synthesis

/-- The second run is in the same state as the first one, but for the machine and the reports. -/
inductive Beside : Assembly Feature → Assembly Feature → Prop
  | mk {s : Assembly Feature} (machine : Machine Feature) (reported : List Diagnostic)
      (hMachine : C.Machines F s.machine machine) (hReports : C.reports s.reported reported) :
      Beside s { s with machine, reported }

/-- The second action does in the second run what the first one does in the first run. -/
abbrev Repeats {α : Type} (x y : Assemble Feature α) : Prop :=
  Lockstep (C.Beside F) (fun d s => C.excuses d s.reported) x y

/-- The same of actions in given states. -/
abbrev RepeatsAt {α : Type} (x y : Assemble Feature α) (s t : Assembly Feature) : Prop :=
  LockstepAt (C.Beside F) (fun d s => C.excuses d s.reported) x y s t

end Comparison

-- --------
-- Reports
-- --------

namespace Encoder

variable {policy policy' : Policy} (C : Comparison policy policy')

theorem report_of_ok {d : Diagnostic} {new : List Diagnostic} (h : policy.judge d = .ok new) (e : Encoder) :
    report policy d e = .ok () { e with reported := e.reported ++ new } :=
  Action.bind_of_ok (require_eq_ok.mpr ⟨h, rfl⟩) _

theorem report_of_error {d d' : Diagnostic} (h : policy.judge d = .error d') (e : Encoder) :
    report policy d e = .error d' e := by
  unfold report
  rw [h]
  rfl

theorem lockstep_report {allowed : Prop} {d : Diagnostic} (h : policy.Compares policy' C.reports C.excuses d) :
    Lockstep (Beside C.reports allowed) (Accounts fun d reported _ => C.excuses d reported) (report policy d)
      (report policy' d) where
  run := by
    rintro e _ ⟨reported, hReports, hAllowed⟩ u e' hRun
    obtain ⟨new, hJudge, rfl⟩ := report_eq_ok hRun
    rcases h _ _ new hReports hJudge with ⟨new', hJudge', hMore⟩ | ⟨hJudge', hExcuse⟩
    · exact .inl ⟨_, report_of_ok hJudge' _, .mk (reported ++ new') hMore hAllowed⟩
    · exact .inr ⟨d, _, report_of_error hJudge' _, hExcuse⟩
  stays hRun _ hExcuse := by
    obtain ⟨new, -, rfl⟩ := report_eq_ok hRun
    exact C.excuses_mono hExcuse (List.prefix_append _ _)

end Encoder

namespace Assembly

variable {Mnemonic Mode Feature : Type} {job : Job Mnemonic Mode Feature} {policy' : Policy}
  (C : Comparison job.policy policy')

theorem lockstep_emitDatum {allowed : Prop} (e : Expr) (w : Width) :
    Lockstep (Encoder.Beside C.reports allowed) (Encoder.Accounts fun d reported _ => C.excuses d reported)
      (emitDatum job e w) (emitDatum { job with policy := policy' } e w) := by
  unfold emitDatum
  split
  · exact Encoder.lockstep_emitValue e w
  · next v hValue =>
    split
    · exact Encoder.lockstep_emitValue e w
    · exact (Encoder.lockstep_report C (C.compares_tooLarge v w.bits e.span)).bind fun _ =>
        Encoder.lockstep_emitTruncated e w

section Instruction

variable [DecidableEq Mode] [Flag Mode] [Flag Feature] {F : Family Mnemonic Mode Feature}

/-- An instruction in two runs. If it was synthesized, then it was so in both of them, or in the first one only and
is reported there. -/
theorem lockstep_encodeInstruction {policy : Policy} (C : Comparison policy policy') (hF : F.Shipped)
    {machine machine' : Machine Feature} (hMachine : C.Machines F machine machine') (span : Span) (m : Mnemonic)
    (implied : Option Nat) (c : Cursor) :
    Lockstep (Encoder.Beside C.reports (Encoder.BothAllow ⟨machine, policy, span⟩ ⟨machine', policy', span⟩))
      (Encoder.Accounts fun d reported _ => C.excuses d reported)
      (encodeInstruction F ⟨machine, policy, span⟩ m implied c)
      (encodeInstruction F ⟨machine', policy', span⟩ m implied c) where
  run := by
    intro e e' hBeside c' e₂ hRun
    have hSwitches := hMachine.synthesis
    have hSites : Encoder.SitesAgree F ⟨machine, policy, span⟩ ⟨machine', policy', span⟩ :=
      ⟨rfl, hMachine.features, hMachine.basePage⟩
    obtain ⟨e₁, hDispatch, -, -⟩ := dispatch_of_encodeInstruction hRun
    rcases (Encoder.lockstep_dispatch hSites hF m implied c).run e e' hBeside c' e₁ hDispatch with
      ⟨_, hDispatch', reported, hReports, hAllowed⟩ | ⟨d, e₁', hFail, hOn, hOff, hSynthesized⟩
    · cases hFlag : e₁.synthesized with
      | false =>
        rw [encodeInstruction_of_native hDispatch hFlag] at hRun
        cases hRun
        exact .inl ⟨_, encodeInstruction_of_native hDispatch' hFlag, .mk reported hReports hAllowed⟩
      | true =>
        obtain ⟨hOn, hOn'⟩ := hAllowed hFlag
        rw [hOn, hOn'] at hSwitches
        rw [encodeInstruction_of_synthesized hDispatch hFlag] at hRun
        rw [encodeInstruction_of_synthesized hDispatch' hFlag]
        have hReport := C.compares_synthesized hSwitches (F.display m) (e₁.instructions - 1) span
        exact ((Encoder.lockstep_report C hReport).bind fun _ => .pure c').run _ _
          (.mk reported hReports hAllowed) _ _ hRun
    · rw [hOn, hOff] at hSwitches
      rw [encodeInstruction_of_synthesized hDispatch hSynthesized] at hRun
      obtain ⟨⟨⟩, e₃, hReport, hDone⟩ := Action.bind_eq_ok.mp hRun
      obtain ⟨-, rfl⟩ := Action.pure_eq_ok.mp hDone
      obtain ⟨new, hJudge, rfl⟩ := Encoder.report_eq_ok hReport
      exact .inr ⟨d, e₁', Action.bind_of_error hFail _,
        C.excuses_synthesized hSwitches d _ new _ _ _ hJudge⟩
  stays h _ hExcuse :=
    C.excuses_mono hExcuse ((AdmitsWriting.keeps_encodeInstruction F _ m implied c).of_ok h).reported

end Instruction

-- --------
-- Reading and writing
-- --------

/-- What was reported stays reported. -/
def Reported (a b : Assembly Feature) : Prop := a.reported <+: b.reported

instance : Std.Refl (@Reported Feature) where
  refl _ := List.prefix_rfl

instance : Trans (@Reported Feature) Reported Reported where
  trans := List.IsPrefix.trans

theorem admits_reported [DecidableEq Mode] [Flag Mode] (job : Job Mnemonic Mode Feature) :
    Admits job Reported where
  read _ := List.prefix_rfl
  define _ _ := List.prefix_rfl
  operands _ := List.prefix_rfl
  encode h := h.reported
  machine _ _ := List.prefix_rfl

/-- What was reported in front of an action accounts for an error behind it too. -/
theorem excuses_of_keeps {α : Type} {x : Assemble Feature α} (hKeeps : Keeps Reported x) {s s' : Assembly Feature}
    {a : α} (h : x s = .ok a s') (d : Diagnostic) (hExcuse : C.excuses d s.reported) :
    C.excuses d s'.reported :=
  C.excuses_mono hExcuse (hKeeps.of_ok h)

section Actions

variable (F : Family Mnemonic Mode Feature)

/-- An action that changes neither the machine nor the reports, and does not look at them. -/
theorem repeats_of_frame {α : Type} {x y : Assemble Feature α}
    (h : ∀ s a s', x s = .ok a s' → s'.machine = s.machine ∧ s'.reported = s.reported ∧
      ∀ machine reported, y { s with machine, reported } = .ok a { s' with machine, reported }) :
    C.Repeats F x y where
  run := by
    rintro s _ ⟨machine, reported, hMachine, hReports⟩ a s' hRun
    obtain ⟨hMachine', hReported', hSame⟩ := h s a s' hRun
    refine .inl ⟨_, hSame machine reported, .mk machine reported ?_ ?_⟩
    · rwa [hMachine']
    · rwa [hReported']
  stays hRun d hExcuse := by
    obtain ⟨-, hReported', -⟩ := h _ _ _ hRun
    rwa [hReported']

theorem repeats_look : C.Repeats F look look := by
  refine repeats_of_frame C F ?_
  rintro s c s' hLook
  obtain ⟨rfl, rfl⟩ := look_eq_ok.mp hLook
  exact ⟨rfl, rfl, fun _ _ => rfl⟩

theorem repeats_moveTo (c : Cursor) : C.Repeats F (moveTo c) (moveTo c) := by
  refine repeats_of_frame C F ?_
  rintro s u s' hMove
  obtain rfl := moveTo_eq_ok.mp hMove
  exact ⟨rfl, rfl, fun _ _ => rfl⟩

theorem repeats_advance : C.Repeats F advance advance :=
  (repeats_look C F).bind fun c => (repeats_moveTo C F c.next).bind fun _ => .pure _

theorem repeats_eat (k : Kind) : C.Repeats F (eat k) (eat k) := by
  refine (repeats_look C F).bind fun c => ?_
  split
  · exact (repeats_moveTo C F _).bind fun _ => .pure _
  · exact .pure _

theorem repeats_eatWord (word : String) : C.Repeats F (eatWord word) (eatWord word) := by
  refine (repeats_look C F).bind fun c => ?_
  split
  · exact (repeats_moveTo C F _).bind fun _ => .pure _
  · exact .pure _

theorem repeats_eatEquals : C.Repeats F eatEquals eatEquals := by
  refine (repeats_eat C F (.mark .equals)).bind fun found => ?_
  split
  · exact .pure _
  · exact repeats_eatWord C F "equ"

theorem repeats_define (name : String) (value : Expr) (span : Span) :
    C.Repeats F (Assembly.define name value span) (Assembly.define name value span) := by
  refine repeats_of_frame C F ?_
  rintro s u s' hDefine
  obtain ⟨symbols, hSymbols, rfl⟩ := define_eq_ok.mp hDefine
  exact ⟨rfl, rfl, fun _ _ => define_eq_ok.mpr ⟨symbols, hSymbols, rfl⟩⟩

theorem repeats_defineLabel (name : String) (span : Span) :
    C.Repeats F (defineLabel name span) (defineLabel name span) := by
  refine repeats_of_frame C F ?_
  rintro s u s' hDefine
  obtain ⟨symbols, hSymbols, rfl⟩ := defineLabel_eq_ok.mp hDefine
  exact ⟨rfl, rfl, fun _ _ => defineLabel_eq_ok.mpr ⟨symbols, hSymbols, rfl⟩⟩

theorem repeats_expression :
    C.Repeats F (expression job) (expression { job with policy := policy' }) := by
  refine repeats_of_frame C F ?_
  rintro s e s' hExpression
  obtain ⟨c, hParse, rfl⟩ := expression_eq_ok hExpression
  exact ⟨rfl, rfl, fun _ _ => expression_of_done hParse⟩

theorem repeats_require {α : Type} (r : Except Diagnostic α) : C.Repeats F (require r) (require r) := by
  cases r with
  | ok a => exact .pure a
  | error d => exact .throw d _

theorem repeats_constant (kind : String) (low high : Value) :
    C.Repeats F (constant job kind low high) (constant { job with policy := policy' } kind low high) := by
  refine (repeats_expression C F).bind fun e => ?_
  split
  · exact .throw _ _
  · exact (repeats_require C F _).bind fun _ => .pure _

theorem repeats_definition (name : String) (span : Span) :
    C.Repeats F (definition job name span) (definition { job with policy := policy' } name span) :=
  (repeats_expression C F).bind fun e => repeats_define C F name e span

/-- Actions of the encoder start with nothing synthesized. -/
theorem repeats_encode (allowed : Prop) {α : Type} {act act' : Encode α}
    (h : Lockstep (Encoder.Beside C.reports allowed) (Encoder.Accounts fun d reported _ => C.excuses d reported)
      act act') : C.Repeats F (encode act) (encode act') where
  run := by
    rintro s _ ⟨machine, reported, hMachine, hReports⟩ a s' hRun
    obtain ⟨e, hAct, rfl⟩ := encode_eq_ok hRun
    rcases h.run s.encoder { s.encoder with reported } (.mk reported hReports nofun) a e hAct with
      ⟨_, hAct', reported', hReports', -⟩ | ⟨d, e', hFail, hExcuse⟩
    · exact .inl ⟨_, encode_of_ok hAct', .mk machine reported' hMachine hReports'⟩
    · exact .inr ⟨d, _, encode_of_error hFail, hExcuse⟩
  stays hRun d hExcuse := by
    obtain ⟨e, hAct, rfl⟩ := encode_eq_ok hRun
    exact h.stays hAct d hExcuse

theorem repeats_datum (w : Width) :
    C.Repeats F (datum job w) (datum { job with policy := policy' } w) := by
  refine (repeats_look C F).bind fun c => ?_
  split
  · exact (repeats_moveTo C F _).bind fun _ =>
      repeats_encode C F True (Encoder.lockstep_emit _)
  · exact (repeats_expression C F).bind fun e =>
      repeats_encode C F True (lockstep_emitDatum C e _)

theorem repeats_data (w : Width) (fuel : Nat) :
    C.Repeats F (data job w fuel) (data { job with policy := policy' } w fuel) := by
  induction fuel with
  | zero => exact .pure _
  | succ fuel ih =>
    refine (repeats_datum C F w).bind fun _ => (repeats_eat C F (.mark .comma)).bind fun more => ?_
    split
    · exact ih
    · exact .pure _

/-- A change of the machine that both runs make. -/
theorem repeats_machine {f : Machine Feature → Machine Feature}
    (hf : ∀ machine machine', C.Machines F machine machine' → C.Machines F (f machine) (f machine')) :
    C.Repeats F (modify fun s : Assembly Feature => { s with machine := f s.machine })
      (modify fun s : Assembly Feature => { s with machine := f s.machine }) := by
  refine .modify ?_ fun _ _ hExcuse => hExcuse
  rintro s _ ⟨machine, reported, hMachine, hReports⟩
  exact .mk (f machine) reported (hf _ _ hMachine) hReports

theorem repeats_selectCpu :
    C.Repeats F (selectCpu job) (selectCpu { job with policy := policy' }) := by
  refine (repeats_advance C F).bind fun t => ?_
  split
  · exact .throw _ _
  · dsimp only
    split
    · exact .throw _ _
    · next features _ =>
      refine repeats_machine C F (f := fun machine => { machine with features }) ?_
      intro machine machine' hMachine
      exact ⟨.refl F features, hMachine.basePage, hMachine.synthesis⟩

/-- A switch that both runs throw. -/
theorem repeats_setSynthesis (hSwitch : ∀ on, C.switches on on) : C.Repeats F setSynthesis setSynthesis := by
  have hMachine (on : Bool) (machine machine' : Machine Feature) (h : C.Machines F machine machine') :
      C.Machines F { machine with synthesis := on } { machine' with synthesis := on } :=
    ⟨h.features, h.basePage, hSwitch on⟩
  refine (repeats_advance C F).bind fun t => ?_
  split
  · exact repeats_machine C F (hMachine true)
  · exact repeats_machine C F (hMachine false)
  · exact .throw _ _

theorem repeats_openRegion (origin : Value) (span : Span) :
    C.Repeats F (openRegion origin span) (openRegion origin span) := by
  refine repeats_of_frame C F ?_
  rintro s u s' hOpen
  obtain rfl : s.opened origin span = s' := Action.modify_eq_ok.mp hOpen
  have hSame (machine : Machine Feature) (reported : List Diagnostic) :
      opened { s with machine, reported } origin span = { s.opened origin span with machine, reported } := by
    unfold opened
    split <;> rfl
  obtain ⟨earlier, current, hOpened⟩ := opened_eq s origin span
  rw [hOpened]
  refine ⟨rfl, rfl, fun machine reported => ?_⟩
  rw [← hOpened, ← hSame]
  rfl

theorem repeats_carryOut (span : Span) (d : Directive)
    (hSwitch : d = .synthesis → ∀ on, C.switches on on) :
    C.Repeats F (carryOut job span d) (carryOut { job with policy := policy' } span d) := by
  cases d with
  | origin => exact (repeats_constant C F _ _ _).bind fun origin => repeats_openRegion C F origin span
  | data w => exact (repeats_look C F).bind fun c => repeats_data C F w _
  | cpu => exact repeats_selectCpu C F
  | basePage =>
    refine (repeats_constant C F _ _ _).bind fun basePage => ?_
    refine repeats_machine C F (f := fun machine => { machine with basePage }) ?_
    intro machine machine' hMachine
    exact ⟨hMachine.features, rfl, hMachine.synthesis⟩
  | synthesis => exact repeats_setSynthesis C F (hSwitch rfl)

end Actions

-- --------
-- Statements
-- --------

section Statements

variable [DecidableEq Mode] [Flag Mode] [Flag Feature] (hF : job.family.Shipped)

variable (job) in
omit hF in
theorem keeps_reported_optionalContent : Keeps Reported (optionalContent job) := by
  intro s
  refine (admits_reported job).keepsAt_optionalContent ?_ fun _ _ => List.prefix_rfl
  intro _ a origin span
  obtain ⟨earlier, current, hOpened⟩ := opened_eq a origin span
  rw [hOpened]
  exact List.prefix_rfl

include hF

theorem repeats_instruction (name : String) (span : Span) :
    C.Repeats job.family (instruction job name span) (instruction { job with policy := policy' } name span) where
  run := by
    rintro s _ ⟨machine, reported, hMachine, hReports⟩
    unfold instruction
    dsimp only
    split
    · exact (Lockstep.throw _ _).run _ _ (.mk machine reported hMachine hReports)
    · next m implied hMnemonic =>
      have hEncode := lockstep_encodeInstruction C hF hMachine (span.through s.cursor.statementSpan) m implied
        s.cursor
      exact ((repeats_encode C job.family _ hEncode).bind (repeats_moveTo C job.family)).run _ _
        (.mk machine reported hMachine hReports)
  stays h := excuses_of_keeps C ((admits_reported job).keeps_instruction name span) h

theorem repeats_named (name : String) (span : Span) :
    C.Repeats job.family (named job name span) (named { job with policy := policy' } name span) := by
  refine (repeats_eatEquals C job.family).bind fun found => ?_
  split
  · exact repeats_definition C job.family name span
  · exact repeats_instruction C hF name span

variable {s t : Assembly Feature} (hBeside : C.Beside job.family s t)

include hBeside

theorem repeatsAt_optionalContent
    (hSwitch : s.cursor.directive? = some .synthesis → ∀ on, C.switches on on) :
    C.RepeatsAt job.family (optionalContent job) (optionalContent { job with policy := policy' }) s t := by
  obtain ⟨machine, reported, hMachine, hReports⟩ := hBeside
  intro u s' hRun
  rcases optionalContent_cases hRun with hEnd | ⟨d, hDirective⟩ | ⟨name, hName⟩
  · rw [optionalContent_of_end hEnd] at hRun
    rw [optionalContent_of_end (s := { s with machine, reported }) hEnd]
    cases hRun
    exact .inl ⟨_, rfl, .mk machine reported hMachine hReports⟩
  · rw [optionalContent_of_directive? hDirective] at hRun
    rw [optionalContent_of_directive? (s := { s with machine, reported }) hDirective]
    have hCarry := repeats_carryOut C job.family (s.cursor.peekAt 1).span d fun hd => hSwitch (hd ▸ hDirective)
    exact hCarry.run { s with cursor := s.cursor.next.next } _ (.mk machine reported hMachine hReports) u s' hRun
  · rw [optionalContent_of_name hName] at hRun
    rw [optionalContent_of_name (s := { s with machine, reported }) hName]
    exact (repeats_named C hF name s.cursor.peek.span).run { s with cursor := s.cursor.next } _
      (.mk machine reported hMachine hReports) u s' hRun

theorem repeatsAt_parts
    (hSwitch : s.cursor.behindLabel.directive? = some .synthesis → ∀ on, C.switches on on) :
    C.RepeatsAt job.family (parts job) (parts { job with policy := policy' }) s t := by
  obtain ⟨machine, reported, hMachine, hReports⟩ := hBeside
  have hHere : C.Beside job.family { s with cursor := s.cursor.behindLabel }
      { s with machine, reported, cursor := s.cursor.behindLabel } := .mk machine reported hMachine hReports
  have hContent := repeatsAt_optionalContent C hF hHere hSwitch
  intro u s' hRun
  rw [parts_eq] at hRun
  rw [parts_eq]
  dsimp only
  cases hLabel : s.cursor.label? with
  | none =>
    rw [hLabel] at hRun
    exact hContent u s' hRun
  | some found =>
    obtain ⟨name, span⟩ := found
    have hDefine := repeats_defineLabel C job.family name span
    simp only [hLabel] at hRun ⊢
    split at hRun
    · next hOrigin =>
      rw [if_pos hOrigin]
      exact hContent.bind (fun _ s₁ t₁ _ h₁ => hDefine.run s₁ t₁ h₁) (fun _ _ _ _ h => hDefine.stays h) u s' hRun
    · next hOrigin =>
      rw [if_neg hOrigin]
      refine (hDefine.run _ _ hHere).bind ?_ ?_ u s' hRun
      · intro _ s₁ t₁ hLabelled h₁
        obtain ⟨symbols, -, rfl⟩ := defineLabel_eq_ok.mp hLabelled
        exact repeatsAt_optionalContent C hF h₁ hSwitch
      · exact fun _ _ _ _ h => excuses_of_keeps C (keeps_reported_optionalContent job) h

/-- **A statement** does in the second run what it does in the first one. -/
theorem repeatsAt_wholeStatement
    (hSwitch : s.cursor.behindLabel.directive? = some .synthesis → ∀ on, C.switches on on) :
    C.RepeatsAt job.family (wholeStatement job) (wholeStatement { job with policy := policy' }) s t := by
  have hLast : C.Repeats job.family
      (look >>= fun c => if c.atStatementEnd then pure () else throw (.danglingTokens c.statementSpan))
      (look >>= fun c => if c.atStatementEnd then pure () else throw (.danglingTokens c.statementSpan)) := by
    refine (repeats_look C job.family).bind fun c => ?_
    split
    · exact .pure _
    · exact .throw _ _
  exact (repeatsAt_parts C hF hBeside hSwitch).bind (fun _ s₁ t₁ _ h₁ => hLast.run s₁ t₁ h₁)
    fun _ _ _ _ h => hLast.stays h

end Statements

-- --------
-- Runs
-- --------

section Runs

variable [DecidableEq Mode] [Flag Mode] [Flag Feature] (hF : job.family.Shipped)

theorem reported_statement (job : Job Mnemonic Mode Feature) (s : Assembly Feature) :
    Reported s (statement job s) := by
  have hWhole : KeepsAt Reported (wholeStatement job) s := by
    refine (admits_reported job).wholeStatement ?_ fun _ _ => List.prefix_rfl
    intro _ a origin span
    obtain ⟨earlier, current, hOpened⟩ := opened_eq a origin span
    rw [hOpened]
    exact List.prefix_rfl
  unfold KeepsAt at hWhole
  cases hRun : wholeStatement job s with
  | ok u s' =>
    rw [hRun] at hWhole
    rw [statement_of_ok hRun]
    exact hWhole
  | error d s' =>
    rw [hRun] at hWhole
    obtain ⟨earlier, current, hStatement⟩ := statement_of_error hRun
    rw [hStatement]
    exact hWhole

theorem reported_steps (job : Job Mnemonic Mode Feature) (n : Nat) (s : Assembly Feature) :
    Reported s (steps job n s) := by
  refine steps_induction (motive := Reported s) (fun t hReported _ => ?_) n List.prefix_rfl
  have hStep : Reported t (step job t) := by
    cases hAt : t.cursor.isAt .newline with
    | true =>
      rw [step_of_newline hAt]
      exact List.prefix_rfl
    | false =>
      rw [step_of_statement hAt]
      exact reported_statement job t
  exact hReported.trans hStep

include hF

variable {s t : Assembly Feature} (hBeside : C.Beside job.family s t)

include hBeside

/-- A statement that gets through in the first run leaves the runs side by side, or it fails in the second run. -/
theorem beside_statement (hSwitch : s.cursor.behindLabel.directive? = some .synthesis → ∀ on, C.switches on on)
    {s' : Assembly Feature} (hRun : wholeStatement job s = .ok () s') :
    C.Beside job.family (statement job s) (statement { job with policy := policy' } t) ∨
      ∃ d, (statement { job with policy := policy' } t).errors = s.errors ++ [d] ∧
        C.excuses d (statement job s).reported := by
  have hErrors : t.errors = s.errors := by
    cases hBeside
    rfl
  rw [statement_of_ok hRun]
  rcases repeatsAt_wholeStatement C hF hBeside hSwitch () s' hRun with ⟨t', hRun', hBeside'⟩ | ⟨d, t', hFail, hExcuse⟩
  · rw [statement_of_ok hRun']
    obtain ⟨machine, reported, hMachine, hReports⟩ := hBeside
    obtain ⟨machine', reported', hMachine', hReports'⟩ := hBeside'
    exact .inl (.mk machine' reported' hMachine' hReports')
  · obtain ⟨earlier, current, hStatement⟩ := statement_of_error hFail
    refine .inr ⟨d, ?_, hExcuse⟩
    rw [hStatement, hErrors]

/-- **A run** whose statements all get through is repeated by the second run, up to the end or up to a statement
that fails there. -/
theorem beside_steps (n : Nat) (hErrors : (steps job n s).errors = [])
    (hSwitch : ∀ c, s.cursor.StartsLine c → c.behindLabel.directive? = some .synthesis →
      ∀ on, C.switches on on) :
    C.Beside job.family (steps job n s) (steps { job with policy := policy' } n t) ∨
      ∃ d others, (steps { job with policy := policy' } n t).errors = d :: others ∧
        C.excuses d (steps job n s).reported := by
  induction n generalizing s t with
  | zero => exact .inl hBeside
  | succ n ih =>
    have hCursor : t.cursor = s.cursor := by
      cases hBeside
      rfl
    unfold steps at hErrors ⊢
    rw [hCursor]
    split at hErrors
    · next hDone =>
      rw [if_pos hDone, if_pos hDone]
      exact .inl hBeside
    · next hMore =>
      rw [if_neg hMore, if_neg hMore]
      cases hAt : s.cursor.isAt .newline with
      | true =>
        have hAt' : t.cursor.isAt .newline = true := hCursor ▸ hAt
        rw [step_of_newline hAt] at hErrors
        rw [step_of_newline hAt, step_of_newline hAt', hCursor]
        refine ih ?_ hErrors fun c hc => ?_
        · obtain ⟨machine, reported, hMachine, hReports⟩ := hBeside
          exact .mk machine reported hMachine hReports
        · exact hSwitch c (hc.of_next (Cursor.atStatementEnd_of_newline hAt))
      | false =>
        have hAt' : t.cursor.isAt .newline = false := hCursor ▸ hAt
        rw [step_of_statement hAt] at hErrors
        rw [step_of_statement hAt, step_of_statement hAt']
        obtain ⟨s', hRun⟩ := exists_ok_of_errors hErrors
        have hHere := beside_statement C hF hBeside
          (fun hDirective => hSwitch s.cursor (.of_directive? hDirective) hDirective) hRun
        rcases hHere with hNext | ⟨d, hFail, hExcuse⟩
        · refine ih hNext hErrors fun c hc => ?_
          rw [cursor_statement_of_ok hF hRun] at hc
          exact hSwitch c hc.of_skipStatement
        · have hNone : s.errors = [] := by
            have hPrefix := (continues_statement job s).errors.trans (continues_steps job (statement job s) n).errors
            rw [hErrors] at hPrefix
            exact List.prefix_nil.mp hPrefix
          obtain ⟨others, hOthers⟩ :=
            (continues_steps { job with policy := policy' } (statement { job with policy := policy' } t) n).errors
          rw [hFail, hNone] at hOthers
          exact .inr ⟨d, others, hOthers.symm, C.excuses_mono hExcuse (reported_steps job n (statement job s))⟩

end Runs

end Assembly

namespace Comparison

variable {Mnemonic Mode Feature : Type} [DecidableEq Mode] [Flag Mode] [Flag Feature]
  {F : Family Mnemonic Mode Feature} {policy policy' : Policy} (C : Comparison policy policy')

omit [DecidableEq Mode] [Flag Mode] [Flag Feature] in
theorem Beside.finish {C : Comparison policy policy'} {s t : Assembly Feature} (h : C.Beside F s t) :
    t.finish.result = s.finish.result ∧ C.reports s.finish.reported t.finish.reported := by
  obtain ⟨machine, reported, hMachine, hReports⟩ := h
  exact ⟨rfl, hReports⟩

/-- **Two runs over the same source.** If the first one leaves a program, then the second one leaves the same
program, or its first error is one for which the reports of the first run account. The two runs may differ in
synthesis in more than their start only if the source does not switch it. -/
theorem assemble (hF : F.Shipped) {machine machine' : Machine Feature} (hMachine : C.Machines F machine machine')
    {source : String}
    (hSwitch : ∀ tokens, Token.scan source = .ok tokens →
      ∀ c, (⟨tokens, source.utf8ByteSize⟩ : Cursor).StartsLine c →
        c.behindLabel.directive? = some .synthesis → ∀ on, C.switches on on)
    {p : Program} (h : (F.assemble machine policy source).result = .ok p) :
    (F.assemble machine' policy' source).result = .ok p ∧
        C.reports (F.assemble machine policy source).reported (F.assemble machine' policy' source).reported ∨
      ∃ d others, (F.assemble machine' policy' source).result = .error (.collected (d :: others)) ∧
        C.excuses d (F.assemble machine policy source).reported := by
  obtain ⟨tokens, final, hScan, rfl, hErrors, rfl⟩ := Family.exists_run h
  rw [Family.assemble_of_scan _ _ _ _ hScan, Family.assemble_of_scan _ _ _ _ hScan]
  have hStart : C.Beside F { machine, cursor := ⟨tokens, source.utf8ByteSize⟩ }
      { machine := machine', cursor := ⟨tokens, source.utf8ByteSize⟩ } := .mk machine' [] hMachine C.reports_nil
  rcases Assembly.beside_steps C hF hStart tokens.length hErrors (hSwitch tokens hScan) with
    hBeside | ⟨d, others, hFail, hExcuse⟩
  · obtain ⟨hResult, hReports⟩ := hBeside.finish
    exact .inl ⟨hResult.trans (Assembly.result_finish_of_nil hErrors), hReports⟩
  · have hSome : (Assembly.steps (F.job policy' source) tokens.length
        { machine := machine', cursor := ⟨tokens, source.utf8ByteSize⟩ }).errors = d :: others := hFail
    refine .inr ⟨d, others, ?_, hExcuse⟩
    rw [Assembly.result_finish_of_ne_nil (by rw [hSome]; exact List.cons_ne_nil _ _), hSome]

end Comparison

end CrossAsm
