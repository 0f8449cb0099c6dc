import CrossAsm.Proofs.Assembly.Instruction
import CrossAsm.Proofs.Encoder.Relative
import CrossAsm.Proofs.Mos65.Grammar
import CrossAsm.Proofs.Operand

/-!
# CrossAsm — relative transfers of the 65xx

The branches, BRA, BSR, BBR and BBS, and the conditional jumps where the CPU has 16-bit branches.

* `transfer?` — where they go and how they are encoded.
* `writes_transfer` — what is written for them is one of these encodings.
* `Aimed` — the text of the operand names the target, and `aimed_of_operands`, it is this target.
-/

namespace CrossAsm.Mos65

open Encoder

-- --------
-- Encodings
-- --------

/-- A displacement of 8 bits behind the opcode. -/
def shortForm (opcode : UInt8) : RelativeForm where
  opcode? := some opcode

/-- A displacement of 16 bits behind the opcode. -/
def longForm (opcode : UInt8) : RelativeForm where
  opcode? := some opcode
  isLong := true

/-- A displacement behind an opcode with a bit number and an address in the base page. -/
def bitForm : RelativeForm where
  opcode? := none
  lead := 2

/-- The relative transfer that an instruction is, if it is one. -/
def transfer? (features : Features) (i : Instr) : Option Transfer :=
  match i.mnemonic with
  | .branch c => some ⟨i.first.value 0, [shortForm c.opcode, longForm (c.opcode + 3)]⟩
  | .bra => some ⟨i.first.value 0, [shortForm 0x80, longForm 0x83]⟩
  | .bsr => some ⟨i.first.value 0, [longForm 0x63]⟩
  | .bit .bbr | .bit .bbs => some ⟨i.first.value 2, [bitForm]⟩
  | .jump c =>
    if features.includes {.ce02} then some ⟨i.first.value 0, [longForm (c.opcode + 3)]⟩ else none
  | _ => none

variable {s : Setting Feature} {i : Instr} {items : List Item}

theorem opcode_or_three (c : Condition) : c.opcode ||| 0x03 = c.opcode + 3 := by
  cases c <;> decide

theorem encodes_long (short long : UInt8) (hLong : isLongBranch s i.first = true) :
    (longForm long).Encodes (i.first.value 0) s.counter (branchItems s i short long) := by
  refine ⟨[.bytes [long]], ?_, rfl, fun opcode hOpcode => ?_⟩
  · exact if_pos hLong
  · cases hOpcode
    rfl

theorem encodes_short (short long : UInt8) (hShort : isLongBranch s i.first = false) :
    (shortForm short).Encodes (i.first.value 0) s.counter (branchItems s i short long) := by
  refine ⟨[.bytes [short]], ?_, rfl, fun opcode hOpcode => ?_⟩
  · exact if_neg (Bool.eq_false_iff.mp hShort)
  · cases hOpcode
    rfl

theorem encodes_branch (short long : UInt8) :
    ∃ form ∈ [shortForm short, longForm long],
      form.Encodes (i.first.value 0) s.counter (branchItems s i short long) := by
  cases hLong : isLongBranch s i.first with
  | true => exact ⟨_, by simp, encodes_long short long hLong⟩
  | false => exact ⟨_, by simp, encodes_short short long hLong⟩

/-- A branch that is forced to be long. -/
theorem isLongBranch_of_mode {o : Operand Mode} (hMode : o.mode = .relativeLong) :
    isLongBranch s o = true := by
  simp [isLongBranch, hMode]

theorem encodes_bit {op : BitOp} (hMode : i.first.mode = .zeroPageBitRelative)
    (h : bitItems s i op = .ok items) : bitForm.Encodes (i.first.value 2) s.counter items := by
  unfold bitItems at h
  dsimp only at h
  split at h
  · cases h
  · rw [if_pos hMode] at h
    obtain rfl := Except.ok.inj h
    exact ⟨_, rfl, rfl, nofun⟩

/-- All of them but the conditional jumps are native. -/
theorem encodes_native {features : Features} {t : Transfer} {o o₂ : Operand Mode} {m : Mnemonic}
    (h : transfer? features ⟨m, o, o₂⟩ = some t) (hMode : o.mode ∈ (entry m).first)
    (hNative : native s ⟨m, o, o₂⟩ = .ok items) :
    ∃ form ∈ t.forms, form.Encodes t.target s.counter items := by
  cases m with
  | branch c =>
    obtain rfl := Option.some.inj h
    obtain rfl := Except.ok.inj hNative
    rw [← opcode_or_three]
    exact encodes_branch _ _
  | bra =>
    obtain rfl := Option.some.inj h
    obtain rfl := Except.ok.inj hNative
    exact encodes_branch 0x80 0x83
  | bsr =>
    obtain rfl := Option.some.inj h
    obtain rfl := Except.ok.inj hNative
    have hLong : o.mode = .relativeLong := by
      revert hMode
      generalize o.mode = mode
      cases mode <;> decide
    exact ⟨_, List.mem_singleton_self _, encodes_long 0x63 0x63 (isLongBranch_of_mode hLong)⟩
  | bit op =>
    have hBit : op.mode = .zeroPageBitRelative ∧ t = ⟨o.value 2, [bitForm]⟩ := by
      cases op with
      | rmb => cases h
      | smb => cases h
      | bbr => exact ⟨rfl, (Option.some.inj h).symm⟩
      | bbs => exact ⟨rfl, (Option.some.inj h).symm⟩
    obtain ⟨hOp, rfl⟩ := hBit
    have hRelative : o.mode = .zeroPageBitRelative := by
      rw [entry, hOp] at hMode
      revert hMode
      generalize o.mode = mode
      cases mode <;> decide
    exact ⟨_, List.mem_singleton_self _, encodes_bit hRelative hNative⟩
  | jump c => cases hNative
  | _ => cases h

variable {site : Site Feature} {a e : Encoder} {t : Transfer}

theorem expansion?_long {c : Condition} {o o₂ : Operand Mode}
    (hFeatures : site.machine.features.includes {.ce02} = true) :
    family.expansion? (setting site a) ⟨.jump c, o, o₂⟩ = some
      { synthesized := false
        parts := [part (.branch c) (.withValue .relativeLong (o.value 0) o.span) o.span] } :=
  congrArg some (if_pos hFeatures)

/-- A conditional jump is a 16-bit branch where the CPU has one. -/
theorem writes_jump {c : Condition} {o o₂ : Operand Mode}
    (hFeatures : site.machine.features.includes {.ce02} = true)
    (hFinish : finish family site ⟨.jump c, o, o₂⟩ a = .ok () e) :
    ∃ items, (longForm (c.opcode + 3)).Encodes (o.value 0) (a.output.positionExpr site.span) items ∧
      Writes items a e := by
  have hOutput := writes_finish hFinish
  rw [expansion?_long hFeatures] at hOutput
  obtain ⟨label, s₁, hStart, hParts⟩ := hOutput
  obtain ⟨s₂, hPart, hDone⟩ := Action.forM_cons_eq_ok.mp hParts
  obtain ⟨-, rfl⟩ := Action.pure_eq_ok.mp hDone
  obtain ⟨items, hNative, hWritten, hFits⟩ := writes_encodeNative hPart
  obtain rfl := Except.ok.inj hNative
  rw [hStart] at hWritten
  refine ⟨_, ?_, hWritten, hFits⟩
  rw [← opcode_or_three, ← hStart]
  exact encodes_long _ _ (isLongBranch_of_mode rfl)

/-- **What is written for a relative transfer** is one of its encodings. -/
theorem writes_transfer {m : Mnemonic} {o o₂ : Operand Mode}
    (h : transfer? site.machine.features ⟨m, o, o₂⟩ = some t)
    (hFinish : finish family site ⟨m, o, o₂⟩ a = .ok () e) :
    ∃ form ∈ t.forms, ∃ items,
      form.Encodes t.target (a.output.positionExpr site.span) items ∧ Writes items a e := by
  by_cases hJump : ∃ c, m = .jump c
  · obtain ⟨c, rfl⟩ := hJump
    simp only [transfer?] at h
    split at h
    · next hFeatures =>
      obtain rfl := Option.some.inj h
      exact ⟨_, List.mem_singleton_self _, writes_jump hFeatures hFinish⟩
    · cases h
  · have hNone : family.expansion? (setting site a) ⟨m, o, o₂⟩ = none := by
      show expansion? _ _ = none
      unfold transfer? at h
      cases m <;> simp_all [expansion?]
    have hOutput := writes_finish hFinish
    rw [hNone] at hOutput
    obtain ⟨items, hNative, hWrites⟩ := hOutput
    obtain ⟨form, hForm, hEncodes⟩ := encodes_native h (mode_of_finish hFinish) hNative
    exact ⟨form, hForm, items, hEncodes, hWrites⟩

-- --------
-- Operands
-- --------

/-- Mnemonics whose operand has a target in it. -/
def Mnemonic.isAimed (m : Mnemonic) : Bool := m.isTransfer || m = .bit .bbr || m = .bit .bbs

theorem isAimed_of_transfer? {features : Features} {m : Mnemonic} {o o₂ : Operand Mode} {t : Transfer}
    (h : transfer? features ⟨m, o, o₂⟩ = some t) :
    m.isAimed = true ∧ t.target = o.value (if m.isTransfer then 0 else 2) := by
  cases m with
  | branch c =>
    obtain rfl := Option.some.inj h
    exact ⟨rfl, rfl⟩
  | bra =>
    obtain rfl := Option.some.inj h
    exact ⟨rfl, rfl⟩
  | bsr =>
    obtain rfl := Option.some.inj h
    exact ⟨rfl, rfl⟩
  | bit op =>
    cases op with
    | rmb => cases h
    | smb => cases h
    | bbr =>
      obtain rfl := Option.some.inj h
      exact ⟨rfl, rfl⟩
    | bbs =>
      obtain rfl := Option.some.inj h
      exact ⟨rfl, rfl⟩
  | jump c =>
    simp only [transfer?] at h
    split at h
    · obtain rfl := Option.some.inj h
      exact ⟨rfl, rfl⟩
    · cases h
  | _ => cases h

/-- The operand at the cursor names the target of a transfer. -/
inductive Aimed (scope : Scope) (m : Mnemonic) (implied : Option Nat) (c : Cursor) (target : Expr) : Prop
  /-- The target is the operand, apart from a width mark. -/
  | plain {mark c₁ c₂} (hBit : ∀ op, m ≠ .bit op) (hMark : Marked c mark c₁)
      (hTarget : Expr.parse scope 0 c₁ = .done target c₂)
  /-- The target comes behind the bit number and the address. -/
  | bit {op c₁ c₂ c₃ c₄ address t} (hOp : m = .bit op) (hNumber : Numbered scope implied c c₁)
      (hAddress : Expr.parse scope 0 c₁ = .done address c₂)
      (hComma : c₂.eat? (.mark .comma) = some (t, c₃)) (hTarget : Expr.parse scope 0 c₃ = .done target c₄)

section

variable {scope : Scope} {machine : Machine Feature} {request : Request Mode} {c c' : Cursor}
  {mark : WidthMark} {o : Operand Mode}

theorem marked_of_widthMark (h : widthMark c = .done mark c') : Marked c mark c' := by
  have hEither : ∃ found mid, Marked c found mid := by
    cases hLess : c.eat? (.mark .less) with
    | some found => exact ⟨_, _, .narrow hLess⟩
    | none =>
      cases hGreater : c.eat? (.mark .greater) with
      | some found => exact ⟨_, _, .greater hGreater⟩
      | none =>
        cases hPipe : c.eat? (.mark .pipe) with
        | some found => exact ⟨_, _, .pipe hPipe⟩
        | none => exact ⟨_, _, .unmarked hLess hGreater hPipe⟩
  obtain ⟨found, mid, hMarked⟩ := hEither
  obtain ⟨rfl, rfl⟩ := Parser.done_eq_done.mp ((widthMark_of_marked hMarked).symm.trans h)
  exact hMarked

theorem numbered_of_bitNumber {start : Span} {bit : Expr}
    (h : bitNumber scope request start c = .done bit c') : Numbered scope request.implied c c' := by
  cases hImplied : request.implied with
  | some n =>
    simp only [bitNumber, hImplied] at h
    obtain ⟨-, rfl⟩ := Parser.pure_eq_done.mp h
    exact .implied
  | none =>
    simp only [bitNumber, hImplied] at h
    obtain ⟨bit', mid, hBit, hRest⟩ := Parser.bind_eq_done.mp h
    obtain ⟨comma, mid', hComma, hDone⟩ := Parser.bind_eq_done.mp hRest
    obtain ⟨rfl, rfl⟩ := Parser.pure_eq_done.mp hDone
    exact .written hBit (Parser.mark_eq_done.mp hComma)

/-- The target of a bit instruction is its last expression. -/
theorem target_of_bitOperand (hAllowed : Mode.zeroPageBitRelative ∈ request.allowed)
    (h : bitOperand scope machine request c = .done o c') :
    ∃ c₁ c₂ c₃ address t, Numbered scope request.implied c c₁ ∧
      Expr.parse scope 0 c₁ = .done address c₂ ∧ c₂.eat? (.mark .comma) = some (t, c₃) ∧
      Expr.parse scope 0 c₃ = .done (o.value 2) c' := by
  unfold bitOperand at h
  rw [Parser.bind_of_done (show Parser.peek c = .done c.peek c from rfl)] at h
  obtain ⟨bit, c₁, hBit, hRest⟩ := Parser.bind_eq_done.mp h
  obtain ⟨address, c₂, hAddress, hRest⟩ := Parser.bind_eq_done.mp hRest
  obtain ⟨a, mid, hPage, hRest⟩ := Parser.bind_eq_done.mp hRest
  have hSame : mid = c₂ := by
    obtain ⟨a', -, hRun⟩ | ⟨d, hProblem⟩ := pageRelative_run machine address c₂
    · exact (Parser.done_eq_done.mp (hRun.symm.trans hPage)).2.symm
    · rw [hProblem] at hPage
      cases hPage
  rw [if_pos hAllowed, hSame] at hRest
  obtain ⟨comma, c₃, hComma, hRest⟩ := Parser.bind_eq_done.mp hRest
  obtain ⟨target, c₄, hTarget, hDone⟩ := Parser.bind_eq_done.mp hRest
  obtain ⟨rfl, rfl⟩ := Parser.pure_eq_done.mp hDone
  exact ⟨c₁, c₂, c₃, address, comma, numbered_of_bitNumber hBit, hAddress,
    Parser.mark_eq_done.mp hComma, hTarget⟩

/-- The modes of a plain address are one of the pairs of a wide and a narrow mode. -/
theorem mem_narrowing_of_index {span last : Span} {wide narrow : Mode}
    (h : (indexed <|> pure (.absolute, .zeroPage, span)) c = .done (wide, narrow, last) c') :
    (wide, narrow) ∈ narrowing := by
  rcases Parser.orElse_eq_done h with hIndex | ⟨-, hDone⟩
  · obtain ⟨comma, mid, -, hRest⟩ := Parser.bind_eq_done.mp hIndex
    rcases Parser.orElse_eq_done hRest with hX | ⟨-, hY⟩
    · obtain ⟨r, mid', -, hDone⟩ := Parser.bind_eq_done.mp hX
      cases (Parser.pure_eq_done.mp hDone).1
      decide
    · obtain ⟨r, mid', -, hDone⟩ := Parser.bind_eq_done.mp hY
      cases (Parser.pure_eq_done.mp hDone).1
      decide
  · cases (Parser.pure_eq_done.mp hDone).1
    decide

/-- The target of any other transfer is read behind a width mark. -/
theorem target_of_plain {allowed : Modes} (hNarrow : ∀ pair ∈ narrowing, pair.2 ∉ allowed)
    (hMode : o.mode ∈ allowed) (h : plain scope allowed c = .done o c') :
    ∃ mark c₁ c₂, Marked c mark c₁ ∧ Expr.parse scope 0 c₁ = .done (o.value 0) c₂ := by
  unfold plain at h
  rw [Parser.bind_of_done (show Parser.peek c = .done c.peek c from rfl)] at h
  obtain ⟨mark, c₁, hMark, hRest⟩ := Parser.bind_eq_done.mp h
  obtain ⟨target, c₂, hTarget, hRest⟩ := Parser.bind_eq_done.mp hRest
  suffices hValue : o.value 0 = target from
    ⟨mark, c₁, c₂, marked_of_widthMark hMark, hValue ▸ hTarget⟩
  by_cases hRelative : allowed.meets {.relative, .relativeLong} = true
  · rw [if_pos hRelative] at hRest
    obtain ⟨rfl, -⟩ := Parser.pure_eq_done.mp hRest
    rfl
  · rw [if_neg hRelative] at hRest
    obtain ⟨⟨wide, narrow, last⟩, c₃, hIndex, hDone⟩ := Parser.bind_eq_done.mp hRest
    obtain ⟨rfl, -⟩ := Parser.pure_eq_done.mp hDone
    cases mark with
    | unmarked => rfl
    | wide => rfl
    | narrow => exact absurd hMode (hNarrow _ (mem_narrowing_of_index hIndex))

/-- Which modes such an operand does not have. -/
theorem not_mem_of_isAimed {m : Mnemonic} (h : m.isAimed = true) :
    (∀ pair ∈ narrowing, pair.2 ∉ (entry m).first) ∧
      ∀ mode ∈ [Mode.none, .accumulator, .immediate, .immediateWord], mode ∉ (entry m).first := by
  have hAll : ∀ m ∈ Mnemonic.all, m.isAimed = true →
      (∀ pair ∈ narrowing, pair.2 ∉ (entry m).first) ∧
        ∀ mode ∈ [Mode.none, .accumulator, .immediate, .immediateWord], mode ∉ (entry m).first := by
    decide +kernel
  exact hAll m (Mnemonic.mem_all m) h

theorem ne_bit_of_isTransfer {m : Mnemonic} (h : m.isTransfer = true) (op : BitOp) : m ≠ .bit op := by
  rintro rfl
  cases h

/-- Nor does it stand in parentheses or brackets. -/
theorem plain_of_isTransfer {m : Mnemonic} (h : m.isTransfer = true) :
    (entry m).first.meets parenthesized = false ∧ (entry m).first.has .indirectLongZ = false := by
  have hAll : ∀ m ∈ Mnemonic.all, m.isTransfer = true →
      (entry m).first.meets parenthesized = false ∧ (entry m).first.has .indirectLongZ = false := by
    decide +kernel
  exact hAll m (Mnemonic.mem_all m) h

section

variable {m : Mnemonic} {immediate : ImmediateWidth} {implied : Option Nat} (hAimed : m.isAimed = true)
  (hMode : o.mode ∈ (entry m).first)
  (h : grammar scope machine ⟨(entry m).first, immediate, implied⟩ c = .done o c')

include hAimed hMode h

/-- An operand with a target is neither absent nor `A` nor an immediate. -/
theorem address_of_grammar :
    (if (entry m).first.meets {.zeroPageBit, .zeroPageBitRelative} then
        bitOperand scope machine ⟨(entry m).first, immediate, implied⟩
      else
        Parser.when ((entry m).first.meets parenthesized) (indirect scope machine) <|>
        Parser.when ((entry m).first.has .indirectLongZ) (longIndirect scope machine) <|>
        plain scope (entry m).first) c = .done o c' := by
  obtain ⟨-, hNot⟩ := not_mem_of_isAimed hAimed
  change (if c.atOperandEnd then _ else _ : Parser (Operand Mode)) c = _ at h
  split at h
  · obtain ⟨-, hDone⟩ := Parser.when_eq_done.mp h
    obtain ⟨rfl, -⟩ := Parser.pure_eq_done.mp hDone
    exact absurd hMode (hNot .none (by decide))
  · rcases Parser.orElse_eq_done h with hRegister | ⟨-, hRest⟩
    · obtain ⟨register, mid, -, hEnd⟩ := Parser.bind_eq_done.mp hRegister
      obtain ⟨rfl, -⟩ := Parser.atEnd_eq_done hEnd
      exact absurd hMode (hNot .accumulator (by decide))
    · split at hRest
      · obtain ⟨hash, mid, -, hRest⟩ := Parser.bind_eq_done.mp hRest
        obtain ⟨value, mid', -, hDone⟩ := Parser.bind_eq_done.mp hRest
        obtain ⟨rfl, -⟩ := Parser.pure_eq_done.mp hDone
        simp only [Operand.withValue] at hMode
        split at hMode
        · exact absurd hMode (hNot .immediateWord (by decide))
        · exact absurd hMode (hNot .immediate (by decide))
      · exact hRest

theorem aimed_of_isTransfer (hTransfer : m.isTransfer = true) :
    Aimed scope m implied c (o.value 0) := by
  have hAddress := address_of_grammar hAimed hMode h
  have hBit := ne_bit_of_isTransfer hTransfer
  obtain ⟨hParentheses, hBrackets⟩ := plain_of_isTransfer hTransfer
  rw [if_neg (Bool.eq_false_iff.mp (meets_bit_eq_false hBit)),
    Parser.orElse_of_nothing (Parser.when_of_nothing (by simp [hParentheses])),
    Parser.orElse_of_nothing (Parser.when_of_nothing (by simp [hBrackets]))] at hAddress
  obtain ⟨mark, c₁, c₂, hMark, hTarget⟩ :=
    target_of_plain (not_mem_of_isAimed hAimed).1 hMode hAddress
  exact .plain hBit hMark hTarget

theorem aimed_of_bit {op : BitOp} (hOp : m = .bit op) (hRelative : op.mode = .zeroPageBitRelative) :
    Aimed scope m implied c (o.value 2) := by
  have hAddress := address_of_grammar hAimed hMode h
  have hFirst : (entry m).first = {.zeroPageBitRelative} := by
    rw [hOp, entry, hRelative]
  have hAllowed : Mode.zeroPageBitRelative ∈ ({.zeroPageBitRelative} : Modes) := by decide
  rw [hFirst, if_pos (by decide)] at hAddress
  obtain ⟨c₁, c₂, c₃, address, comma, hNumber, hParse, hComma, hTarget⟩ :=
    target_of_bitOperand hAllowed hAddress
  exact .bit hOp hNumber hParse hComma hTarget

end

/-- No instruction of the family has a second operand. -/
theorem entry_second (m : Mnemonic) : (entry m).second = none := by
  have hAll : ∀ m ∈ Mnemonic.all, (entry m).second = none := by decide +kernel
  exact hAll m (Mnemonic.mem_all m)

/-- **The target is the one in the text.** -/
theorem aimed_of_operands {features : Features} {w : Pending Mnemonic Feature}
    {first second : Operand Mode} {stop : Cursor} {t : Transfer}
    (h : transfer? features ⟨w.mnemonic, first, second⟩ = some t)
    (hOperands : w.operands family = .ok (first, second, stop)) :
    Aimed (w.scope family) w.mnemonic w.implied w.state.cursor t.target := by
  have hResolve := resolve_of_resolveOperands (entry_second _) hOperands
  obtain ⟨hAimed, hTarget⟩ := isAimed_of_transfer? h
  obtain ⟨hGrammar, hMode⟩ := Operand.grammar_of_resolve (not_mem_of_isAimed hAimed).1 hResolve
  rw [hTarget]
  cases hTransfer : w.mnemonic.isTransfer with
  | true => exact aimed_of_isTransfer hAimed hMode hGrammar hTransfer
  | false =>
    have hOp : w.mnemonic = .bit .bbr ∨ w.mnemonic = .bit .bbs := by
      simpa [Mnemonic.isAimed, hTransfer] using hAimed
    rcases hOp with hOp | hOp
    · exact aimed_of_bit hAimed hMode hGrammar hOp rfl
    · exact aimed_of_bit hAimed hMode hGrammar hOp rfl

end

end CrossAsm.Mos65
