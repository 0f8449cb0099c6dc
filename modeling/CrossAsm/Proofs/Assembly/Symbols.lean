import CrossAsm.Proofs.Assembly.Failure
import CrossAsm.Proofs.Encoder.Symbols

/-!
# CrossAsm — the symbols of a run

Everything that a statement defines or puts out is read from the source or made up by the encoder. `Sound` says so of
a state: definitions mention names of the source, and the output mentions names of the source and names that are
defined. A statement that gets through keeps it like that. One that fails may leave a name in its output that it did
not get to define, but that output is taken back.

* `Stays` — how an action ends that starts in a sound state, with one lemma for each of them.
* `sound_step` — so the run is in a sound state behind each of its steps.
* `redefined_of_failure?` — a statement that fails for a redefinition has redefined a name of the source.
-/

namespace CrossAsm

/-- Output that is taken back mentions nothing. -/
theorem Region.SameOutput.refersTo {a b : List Region} {N : String → Prop} (h : SameOutput a b)
    (ha : ∀ r ∈ a, r.output.RefersTo N) : ∀ r ∈ b, r.output.RefersTo N := by
  intro r hr
  obtain ⟨i, hi⟩ := List.mem_iff_getElem?.mp hr
  unfold Section.RefersTo
  rcases Nat.lt_or_ge i a.length with hLt | hGe
  · obtain ⟨r', hr', -, hPatches⟩ := h.kept i a[i] (List.getElem?_eq_getElem hLt)
    obtain rfl := Option.some.inj (hi.symm.trans hr')
    rw [hPatches]
    exact ha a[i] (List.getElem_mem hLt)
  · rw [(h.added i r hGe hi).2]
    intro q hq
    cases hq

/-- Only the name that is defined can be defined already. -/
theorem SymbolTable.redefined?_of_define {t : SymbolTable} {name : String} {value : Expr} {span : Span}
    {d : Diagnostic} (h : t.define name value span = .error d) : d.redefined? = some name := by
  unfold define at h
  split at h
  · cases h
    rfl
  · cases h

namespace Assembly

open CrossAsm.Action (EndsAt)

variable {Mnemonic Mode Feature α β : Type} {N : String → Prop} {s s' : Assembly Feature}

-- --------
-- Sound states
-- --------

/-- What is still to be read and all definitions mention names in `N` only, and the output mentions no others but
those that are defined. -/
structure Sound (N : String → Prop) (s : Assembly Feature) : Prop where
  names   : s.cursor.NamesIn N
  symbols : s.symbols.Sound N
  output  : ∀ r ∈ s.regions, r.output.RefersTo (s.symbols.Known N)

/-- How a failure leaves the state: if it is about a redefinition, then of a name in `N`. -/
structure Fails (N : String → Prop) (d : Diagnostic) (s : Assembly Feature) : Prop where
  error   : ∀ name, d.redefined? = some name → N name
  names   : s.cursor.NamesIn N
  symbols : s.symbols.Sound N

namespace Sound

theorem moveTo {c : Cursor} (h : s.Sound N) (hc : c.NamesIn N) : Sound N { s with cursor := c } :=
  ⟨hc, h.symbols, h.output⟩

theorem machine (h : s.Sound N) (machine : Machine Feature) : Sound N { s with machine } :=
  ⟨h.names, h.symbols, h.output⟩

theorem define {name : String} {value : Expr} {span : Span} {symbols : SymbolTable} (h : s.Sound N)
    (hName : s.symbols.HandedOut name) (hValue : value.SymbolsIn N)
    (hDefine : s.symbols.define name value span = .ok symbols) : Sound N { s with symbols } := by
  refine ⟨h.names, h.symbols.define hName hValue hDefine, fun r hr => ?_⟩
  exact (h.output r hr).mono fun _ => .mono (SymbolTable.prefix_of_define hDefine)

theorem opened (h : s.Sound N) (origin : Value) (span : Span) : (s.opened origin span).Sound N := by
  have hOutput := (sameOutput_opened s origin span).refersTo h.output
  obtain ⟨earlier, current, hOpened⟩ := opened_eq s origin span
  rw [hOpened] at hOutput ⊢
  exact ⟨h.names, h.symbols, hOutput⟩

theorem encoder (h : s.Sound N) : s.encoder.Sound N :=
  ⟨h.symbols, h.output s.current (List.mem_append_right _ (List.mem_singleton_self _))⟩

theorem withEncoder {e : Encoder} (h : s.Sound N) (he : e.Sound N) (hGrows : s.encoder.Grows e) :
    (s.withEncoder e).Sound N := by
  have hEarlier : ∀ r ∈ s.earlier, r.output.RefersTo (e.symbols.Known N) := by
    intro r hr
    exact (h.output r (List.mem_append_left _ hr)).mono fun _ => .mono hGrows.symbols
  exact ⟨h.names, he.symbols, List.forall_mem_append.mpr ⟨hEarlier, List.forall_mem_singleton.mpr he.output⟩⟩

theorem fails {d : Diagnostic} (h : s.Sound N) (hd : d.redefined? = none) : Fails N d s := by
  refine ⟨?_, h.names, h.symbols⟩
  intro name hName
  rw [hd] at hName
  cases hName

end Sound

-- --------
-- Actions
-- --------

/-- From a sound state, the action gets to a sound one and a result with the property, or it fails and redefines no
name outside of `N`. -/
def Stays (N : String → Prop) (P : α → Prop) (act : Assemble Feature α) : Prop :=
  ∀ s, s.Sound N → EndsAt (fun a s' => P a ∧ s'.Sound N) (Fails N) act s

section Reading

variable {P : α → Prop} {Q : β → Prop} {E : Diagnostic → Assembly Feature → Prop}

namespace Stays

theorem pure {a : α} (h : P a) : Stays N P (pure a : Assemble Feature α) := fun _ hs => .pure ⟨h, hs⟩

theorem throw {d : Diagnostic} (h : d.redefined? = none) : Stays N P (throw d : Assemble Feature α) :=
  fun _ hs => .throw (hs.fails h)

theorem bind {act : Assemble Feature α} {f : α → Assemble Feature β} (hAct : Stays N P act)
    (hf : ∀ a, P a → Stays N Q (f a)) : Stays N Q (act >>= f) :=
  fun s hs => (hAct s hs).bind fun a s' ⟨ha, hs'⟩ => hf a ha s' hs'

theorem require {r : Except Diagnostic α} (h : Delivers P r) : Stays N P (require r : Assemble Feature α) := by
  cases r with
  | ok a => exact pure h
  | error d => exact throw h

end Stays

/-- An action that looks at the cursor first. -/
theorem endsAt_look_bind {P : α → Assembly Feature → Prop} {f : Cursor → Assemble Feature α}
    (h : EndsAt P E (f s.cursor) s) : EndsAt P E (look >>= f) s := h.of_eq rfl

/-- An action that reads a token first. -/
theorem endsAt_advance_bind {P : α → Assembly Feature → Prop} {f : Token → Assemble Feature α}
    (h : EndsAt P E (f s.cursor.peek) { s with cursor := s.cursor.next }) : EndsAt P E (advance >>= f) s :=
  h.of_eq rfl

theorem stays_moveTo {c : Cursor} (hc : c.NamesIn N) : Stays N (fun _ => True) (moveTo c : Assemble Feature Unit) :=
  fun _ hs => .modify ⟨trivial, hs.moveTo hc⟩

theorem stays_eat (m : Mark) : Stays N (fun _ => True) (eat (.mark m) : Assemble Feature Bool) := by
  intro s hs
  refine endsAt_look_bind ?_
  split
  · next t c hEat =>
    have hc := hs.names.of_reads (Cursor.reads_of_eat?_mark hEat)
    exact (stays_moveTo hc).bind (fun _ _ => .pure trivial) s hs
  · exact .pure ⟨trivial, hs⟩

theorem stays_eatWord (word : String) : Stays N (fun _ => True) (eatWord word : Assemble Feature Bool) := by
  intro s hs
  refine endsAt_look_bind ?_
  split
  · next t c hEat =>
    have hc := hs.names.of_reads (Cursor.reads_of_eatWord? hEat)
    exact (stays_moveTo hc).bind (fun _ _ => .pure trivial) s hs
  · exact .pure ⟨trivial, hs⟩

theorem stays_eatEquals : Stays N (fun _ => True) (eatEquals : Assemble Feature Bool) := by
  refine (stays_eat .equals).bind fun found _ => ?_
  split
  · exact .pure trivial
  · exact stays_eatWord "equ"

variable (job : Job Mnemonic Mode Feature)

theorem stays_expression : Stays N (Expr.SymbolsIn N) (expression job) := by
  intro s hs
  have hScope : (s.scopeHere job.family).Like (.within N) (s.scopeHere job.family) :=
    Scope.like_within (Section.symbolsIn_positionExpr s.current.output _ N)
  have hParse := Expr.parse_like hScope 0 _ _ (Cursor.like_within_iff.mpr hs.names)
  refine .get_bind ?_
  unfold scopeHere at hParse
  dsimp only
  generalize Expr.parse _ 0 s.cursor = outcome at hParse
  obtain ⟨hResult, hProblems⟩ := hParse
  have hNone : ∀ d ∈ outcome.problems, d.redefined? = none := fun d hd =>
    (List.forall₂_same.mp hProblems d hd).redefined.resolve_right id
  obtain ⟨_ | ⟨e, c⟩, _ | ⟨d, ds⟩⟩ := outcome
  · exact .throw (hs.fails rfl)
  · exact .throw (hs.fails (hNone d List.mem_cons_self))
  · cases hResult with
    | some hFound =>
      have hc := Cursor.like_within_iff.mp hFound.2
      exact (stays_moveTo hc).bind (fun _ _ => .pure (Expr.like_within_iff.mp hFound.1)) s hs
  · exact .throw (hs.fails (hNone d List.mem_cons_self))

theorem stays_constant (kind : String) (low high : Value) :
    Stays N (fun _ => True) (constant job kind low high) := by
  refine (stays_expression job).bind fun e _ => ?_
  split
  · exact .throw rfl
  · exact (Stays.require (e.delivers_checkRange low high)).bind fun _ _ => .pure trivial

end Reading

-- --------
-- Definitions
-- --------

section Definitions

variable {name : String} (hPlain : ∀ name, N name → SymbolTable.Plain name) (hName : N name) (span : Span)

include hPlain hName

/-- A definition of the source redefines a name of the source, if any. -/
theorem stays_define {value : Expr} (hValue : value.SymbolsIn N) :
    Stays N (fun _ => True) (Assembly.define name value span : Assemble Feature Unit) := by
  intro s hs
  cases hDefine : s.symbols.define name value span with
  | ok symbols =>
    refine .of_ok (a := ()) (define_eq_ok.mpr ⟨symbols, hDefine, rfl⟩) ⟨trivial, ?_⟩
    exact hs.define (.of_plain (hPlain name hName) _) hValue hDefine
  | error d =>
    refine .of_error (define_of_error hDefine) ⟨?_, hs.names, hs.symbols⟩
    intro other hOther
    obtain rfl := Option.some.inj ((SymbolTable.redefined?_of_define hDefine).symm.trans hOther)
    exact hName

theorem stays_defineLabel : Stays N (fun _ => True) (defineLabel name span : Assemble Feature Unit) :=
  fun s hs => .get_bind (stays_define hPlain hName span (Section.symbolsIn_positionExpr s.current.output span N) s hs)

theorem stays_definition (job : Job Mnemonic Mode Feature) :
    Stays N (fun _ => True) (definition job name span) :=
  (stays_expression job).bind fun _ he => stays_define hPlain hName span he

end Definitions

-- --------
-- Directives
-- --------

section Directives

variable (job : Job Mnemonic Mode Feature)

/-- What the encoder does on its own, it does to the current region. -/
theorem stays_encode {P : α → Prop} {act : Encode α} (hGrows : Action.Keeps Encoder.Grows act)
    (hAct : ∀ e : Encoder, e.Sound N → Encoder.Ends N P act e) : Stays N P (encode act : Assemble Feature α) := by
  intro s hs
  have hRun := hAct s.encoder hs.encoder
  have hSteps := hGrows s.encoder
  cases hResult : act s.encoder with
  | ok a e =>
    obtain ⟨ha, he⟩ := hRun.ok hResult
    rw [hResult] at hSteps
    exact .of_ok (encode_of_ok hResult) ⟨ha, hs.withEncoder he hSteps⟩
  | error d e =>
    have hFails := hRun.error hResult
    refine .of_error (encode_of_error hResult) ⟨?_, hs.names, hFails.symbols⟩
    intro name hName
    rw [hFails.error] at hName
    cases hName

theorem actsIn_emitDatum {t : SymbolTable} {e : Expr} (he : e.SymbolsIn N) (w : Width) :
    Encoder.ActsIn N t (fun _ => True) (emitDatum job e w) := by
  unfold emitDatum
  split
  · exact Encoder.actsIn_emitValue he w
  · split
    · exact Encoder.actsIn_emitValue he w
    · exact (Encoder.actsIn_report job.policy rfl).bind fun _ _ => Encoder.actsIn_emitTruncated he w

theorem stays_datum (w : Width) : Stays N (fun _ => True) (datum job w) := by
  intro s hs
  refine endsAt_look_bind ?_
  split
  · next text _ =>
    have hEmit : Stays N (fun _ => True)
        (encode (Encoder.emit (Text.utf8Bytes text.toList)) : Assemble Feature Unit) :=
      stays_encode (Encoder.keeps_emit _) fun e he => (Encoder.actsIn_emit _).ends he
    exact (stays_moveTo hs.names.next).bind (fun _ _ => hEmit) s hs
  · refine (stays_expression job).bind (fun x hx => ?_) s hs
    refine stays_encode (AdmitsWriting.keeps_emitDatum job x _) fun e he => ?_
    exact (actsIn_emitDatum job (hx.mono fun _ => .inl) _).ends he

theorem stays_data (w : Width) (fuel : Nat) : Stays N (fun _ => True) (data job w fuel) := by
  induction fuel with
  | zero => exact .pure trivial
  | succ fuel ih =>
    refine (stays_datum job w).bind fun _ _ => (stays_eat .comma).bind fun more _ => ?_
    split
    · exact ih
    · exact .pure trivial

theorem stays_selectCpu : Stays N (fun _ => True) (selectCpu job) := by
  intro s hs
  have hNext := hs.moveTo hs.names.next
  refine endsAt_advance_bind ?_
  split
  · exact .throw (hNext.fails rfl)
  · split
    · exact .throw (hNext.fails rfl)
    · exact .modify ⟨trivial, hNext.machine _⟩

theorem stays_setSynthesis : Stays N (fun _ => True) (setSynthesis : Assemble Feature Unit) := by
  intro s hs
  have hNext := hs.moveTo hs.names.next
  refine endsAt_advance_bind ?_
  split
  · exact .modify ⟨trivial, hNext.machine _⟩
  · exact .modify ⟨trivial, hNext.machine _⟩
  · exact .throw (hNext.fails rfl)

theorem stays_carryOut (span : Span) (d : Directive) : Stays N (fun _ => True) (carryOut job span d) := by
  cases d with
  | origin =>
    refine (stays_constant job _ _ _).bind fun origin _ s hs => ?_
    exact .modify ⟨trivial, hs.opened origin span⟩
  | data w => exact fun s hs => endsAt_look_bind (stays_data job w _ s hs)
  | cpu => exact stays_selectCpu job
  | basePage =>
    refine (stays_constant job _ _ _).bind fun basePage _ s hs => ?_
    exact .modify ⟨trivial, hs.machine _⟩
  | synthesis => exact stays_setSynthesis

theorem stays_directive : Stays N (fun _ => True) (directive job) := by
  intro s hs
  have hNext := hs.moveTo hs.names.next
  refine endsAt_advance_bind ?_
  split
  · exact .throw (hNext.fails rfl)
  · split
    · exact .throw (hNext.fails rfl)
    · exact stays_carryOut job _ _ _ hNext

end Directives

-- --------
-- Statements
-- --------

section Statements

variable [DecidableEq Mode] [Flag Mode] [Flag Feature] {job : Job Mnemonic Mode Feature}

/-- Reporting that something was synthesized mentions nothing. -/
theorem ends_encodeInstruction {F : Family Mnemonic Mode Feature} {site : Site Feature} {e : Encoder} {c : Cursor}
    (hF : F.Mentions) (h : e.Sound N) (m : Mnemonic) (implied : Option Nat) (hc : c.NamesIn N) :
    Encoder.Ends N (Cursor.NamesIn N) (encodeInstruction F site m implied c) e := by
  refine EndsAt.bind (Encoder.ends_dispatch hF h m implied hc) ?_
  rintro c' e' ⟨hc', h'⟩
  refine .get_bind ?_
  split
  · exact EndsAt.bind ((Encoder.actsIn_report site.policy rfl).ends h') fun _ _ h'' => .pure ⟨hc', h''.2⟩
  · exact .pure ⟨hc', h'⟩

theorem stays_instruction (hF : job.family.Mentions) (name : String) (span : Span) :
    Stays N (fun _ => True) (instruction job name span) := by
  unfold instruction
  split
  · exact .throw rfl
  · next m implied hMnemonic =>
    intro s hs
    refine .get_bind ?_
    have hEncode (site : Site Feature) : Stays N (Cursor.NamesIn N)
        (encode (encodeInstruction job.family site m implied s.cursor) : Assemble Feature Cursor) :=
      stays_encode (AdmitsWriting.keeps_encodeInstruction job.family site m implied s.cursor)
        fun e he => ends_encodeInstruction hF he m implied hs.names
    exact (hEncode _).bind (fun c hc => stays_moveTo hc) s hs

variable (hF : job.family.Mentions) (hPlain : ∀ name, N name → SymbolTable.Plain name)

include hF hPlain

theorem stays_content : Stays N (fun _ => True) (content job) := by
  intro s hs
  have hNext := hs.moveTo hs.names.next
  refine endsAt_advance_bind ?_
  split
  · exact stays_directive job _ hNext
  · next name hLexeme =>
    refine stays_eatEquals.bind (fun found _ => ?_) _ hNext
    split
    · exact stays_definition hPlain (hs.names.peek name hLexeme) _ job
    · exact stays_instruction hF name _
  · exact .throw (hNext.fails rfl)

theorem stays_optionalContent : Stays N (fun _ => True) (optionalContent job) := by
  intro s hs
  refine endsAt_look_bind ?_
  split
  · exact .pure ⟨trivial, hs⟩
  · exact stays_content hF hPlain s hs

/-- The label of a statement is defined in front of its content, or behind it where `.org` stands. -/
theorem stays_parts : Stays N (fun _ => True) (parts job) := by
  intro s hs
  have hBehind := hs.moveTo hs.names.behindLabel
  have hContent : Stays N (fun _ => True) (optionalContent job) := stays_optionalContent hF hPlain
  have hParts : parts job s = _ := parts_eq s
  cases hLabel : s.cursor.label? with
  | none =>
    rw [hLabel] at hParts
    exact (hContent _ hBehind).of_eq hParts
  | some found =>
    obtain ⟨name, span⟩ := found
    have hDefine : Stays N (fun _ => True) (defineLabel name span : Assemble Feature Unit) :=
      stays_defineLabel hPlain (hs.names.label? hLabel) span
    rw [hLabel] at hParts
    dsimp only at hParts
    split at hParts
    · exact (hContent.bind (fun _ _ => hDefine) _ hBehind).of_eq hParts
    · exact (hDefine.bind (fun _ _ => hContent) _ hBehind).of_eq hParts

/-- **A statement keeps a state sound**, or fails without redefining anything but a name of the source. -/
theorem stays_wholeStatement : Stays N (fun _ => True) (wholeStatement job) := by
  refine (stays_parts hF hPlain).bind fun _ _ s hs => endsAt_look_bind ?_
  split
  · exact .pure ⟨trivial, hs⟩
  · exact .throw (hs.fails rfl)

/-- A statement that fails for a redefinition has redefined a name in `N`. -/
theorem redefined_of_failure? (hs : s.Sound N) {d : Diagnostic} (hFailure : failure? job s = some d) {name : String}
    (hName : d.redefined? = some name) : N name := by
  obtain ⟨s', hRun⟩ := failure?_eq_some hFailure
  exact ((stays_wholeStatement hF hPlain s hs).error hRun).error name hName

/-- **A step keeps a state sound**, also if its statement fails. -/
theorem sound_step (hs : s.Sound N) : (step job s).Sound N := by
  cases hAt : s.cursor.isAt .newline with
  | true =>
    rw [step_of_newline hAt]
    exact hs.moveTo hs.names.next
  | false =>
    rw [step_of_statement hAt]
    have hStatement := stays_wholeStatement hF hPlain s hs
    cases hRun : wholeStatement job s with
    | ok u s' =>
      have hs' := (hStatement.ok hRun).2
      rw [statement_of_ok hRun]
      exact ⟨hs'.names, hs'.symbols, hs'.output⟩
    | error d s' =>
      have hFails := hStatement.error hRun
      -- the output is what it was, and what was known then is known now
      have hOutput := (sameOutput_statement hRun).refersTo hs.output
      have hKept := ((effect_wholeStatement job).of_error hRun).keeps.1
      obtain ⟨earlier, current, hBack⟩ := statement_of_error hRun
      rw [hBack] at hOutput ⊢
      refine ⟨hFails.names.of_suffix s'.cursor.skipStatement_suffix, hFails.symbols, fun r hr => ?_⟩
      exact (hOutput r hr).mono fun _ => .mono hKept

theorem sound_steps (hs : s.Sound N) (n : Nat) : (steps job n s).Sound N :=
  steps_induction (fun _ hSound _ => sound_step hF hPlain hSound) n hs

theorem sound_of_mem_visits {n : Nat} {start : Assembly Feature} (hStart : start.Sound N)
    (hs : s ∈ visits job n start) : s.Sound N :=
  visits_induction (fun _ hSound _ => sound_step hF hPlain hSound) hStart hs

end Statements

end Assembly

end CrossAsm
