import CrossAsm.Proofs.Assembly.Instruction
import CrossAsm.Proofs.Encoder.Relative
import CrossAsm.Proofs.Operand
import CrossAsm.Z80

/-!
# CrossAsm — relative transfers of the Z80

DJNZ and JR. JR on a condition that it has no room for becomes JP, which is no relative transfer.

* `transfer?` — where they go and how they are encoded.
* `writes_transfer` — what is written for them is this encoding.
* `Aimed` — the text of the operands names the target, and `aimed_of_operands`, it is this target.
-/

namespace CrossAsm.Z80

open Encoder

-- --------
-- Encodings
-- --------

/-- The opcode of a relative transfer, by the one without a condition. JR has one for each of the first four
conditions. -/
def relativeOpcode? (plain : UInt8) : Option Condition → Option UInt8
  | none => some plain
  | some cc => if cc.isShort then some (0x20 + 8 * cc.code) else none

/-- The relative transfer that an instruction is, if it is one. -/
def transfer? (i : Instr) : Option Transfer :=
  match i.mnemonic with
  | .djnz => some ⟨i.first.value 0, [{ opcode? := some 0x10 }]⟩
  | .jr =>
    (relativeOpcode? 0x18 (conditional i).1).map fun opcode =>
      ⟨(conditional i).2.value 0, [{ opcode? := some opcode }]⟩
  | _ => none

variable {s : Setting Feature} {i : Instr} {items : List Item} {t : Transfer}

theorem pack_of_isShort {cc : Condition} (h : cc.isShort = true) :
    pack 0x20 cc.code 3 = 0x20 + 8 * cc.code := by
  have hAll : ∀ code : Fin 256, decide (UInt8.ofFin code < 4) = true →
      pack 0x20 (UInt8.ofFin code) 3 = 0x20 + 8 * UInt8.ofFin code := by decide +kernel
  exact hAll cc.code.toFin h

theorem view_eq_relative {o : Operand Mode} {e : Expr} (h : view o = .relative e) :
    o.mode = .relative ∧ e = o.value 0 := by
  cases hMode : o.mode with
  | relative =>
    simp only [view, hMode] at h
    exact ⟨rfl, (View.relative.inj h).symm⟩
  | registerIndirect =>
    simp only [view, hMode] at h
    split at h <;> cases h
  | _ =>
    simp only [view, hMode] at h
    cases h

theorem view_of_relative {o : Operand Mode} (h : o.mode = .relative) : view o = .relative (o.value 0) := by
  unfold view
  rw [h]

/-- What relative transfers are encoded as. -/
theorem encodes_relative {opcode : UInt8} (h : relativeItems s i opcode = .ok items) :
    (conditional i).2.mode = .relative ∧
      ∃ found, relativeOpcode? opcode (conditional i).1 = some found ∧
        RelativeForm.Encodes { opcode? := some found } ((conditional i).2.value 0) s.counter items := by
  have hEncodes (found : UInt8) (target : Expr) : RelativeForm.Encodes { opcode? := some found }
      target s.counter [.bytes [found], .value (target.relativeTo s.counter 2) .signedByte] :=
    ⟨[.bytes [found]], rfl, rfl, fun _ hFound => by cases hFound; rfl⟩
  unfold relativeItems at h
  generalize conditional i = both at h ⊢
  obtain ⟨cc?, target⟩ := both
  dsimp only at h ⊢
  split at h
  · next e hView =>
    obtain ⟨hMode, rfl⟩ := view_eq_relative hView
    obtain rfl := Except.ok.inj h
    exact ⟨hMode, opcode, rfl, hEncodes opcode _⟩
  · next e cc hView =>
    obtain ⟨hMode, rfl⟩ := view_eq_relative hView
    split at h
    · next hShort =>
      obtain rfl := Except.ok.inj h
      refine ⟨hMode, _, ?_, hEncodes _ _⟩
      simp only [relativeOpcode?, hShort, if_true, pack_of_isShort hShort]
    · cases h
  · cases h

variable {site : Site Feature} {a e : Encoder}

/-- A target without a condition in front of it. -/
theorem conditional_of_relative (h : i.first.mode = .relative) : conditional i = (none, i.first) := by
  unfold conditional
  rw [view_of_relative h]

/-- The target is the first operand, or the second one behind a condition. -/
theorem conditional_cases (i : Instr) :
    conditional i = (none, i.first) ∨
      i.first.mode = .condition ∧ ∃ cc, conditional i = (some cc, i.second) := by
  cases hMode : i.first.mode with
  | condition =>
    by_cases hNone : i.second.mode = .none
    · exact .inl (by simp [conditional, view, hMode, hNone])
    · exact .inr ⟨rfl, ⟨i.first.registerCode⟩, by simp [conditional, view, hMode, hNone]⟩
  | registerIndirect =>
    left
    by_cases hCode : i.first.registerCode = Pair.hl.code <;> simp [conditional, view, hMode, hCode]
  | _ => exact .inl (by simp [conditional, view, hMode])

/-- JR becomes JP only on conditions that it has no opcode for. -/
theorem farJump_eq_none {opcode plain : UInt8}
    (h : relativeOpcode? plain (conditional i).1 = some opcode) : farJump i = none := by
  unfold farJump
  generalize conditional i = both at h ⊢
  obtain ⟨_ | cc, target⟩ := both
  · rfl
  · dsimp only [relativeOpcode?] at h ⊢
    split at h
    · next hShort =>
      split
      · exact if_pos hShort
      · rfl
    · cases h

theorem djnz_relative {o : Operand Mode} (h : o.mode ∈ (entry .djnz).first) : o.mode = .relative := by
  revert h
  generalize o.mode = mode
  cases mode <;> decide

/-- DJNZ takes no condition, so the target is found in the same way. -/
theorem target_of_transfer? {m : Mnemonic} {o o₂ : Operand Mode} (h : transfer? ⟨m, o, o₂⟩ = some t)
    (hMode : o.mode ∈ (entry m).first) : t.target = (conditional ⟨m, o, o₂⟩).2.value 0 := by
  cases m with
  | djnz =>
    obtain rfl := Option.some.inj h
    rw [conditional_of_relative (djnz_relative hMode)]
  | jr =>
    obtain ⟨opcode, -, rfl⟩ := Option.map_eq_some_iff.mp h
    rfl
  | _ => cases h

theorem encodes_native {m : Mnemonic} {o o₂ : Operand Mode} (h : transfer? ⟨m, o, o₂⟩ = some t)
    (hMode : o.mode ∈ (entry m).first) (hNative : native s ⟨m, o, o₂⟩ = .ok items) :
    (conditional ⟨m, o, o₂⟩).2.mode = .relative ∧
      ∃ form ∈ t.forms, form.Encodes t.target s.counter items := by
  cases m with
  | djnz =>
    obtain rfl := Option.some.inj h
    obtain ⟨hTarget, found, hFound, hEncodes⟩ := encodes_relative hNative
    rw [conditional_of_relative (djnz_relative hMode)] at hTarget hFound hEncodes ⊢
    obtain rfl := Option.some.inj hFound
    exact ⟨hTarget, _, List.mem_singleton_self _, hEncodes⟩
  | jr =>
    obtain ⟨opcode, hOpcode, rfl⟩ := Option.map_eq_some_iff.mp h
    obtain ⟨hTarget, found, hFound, hEncodes⟩ := encodes_relative hNative
    obtain rfl := Option.some.inj (hOpcode.symm.trans hFound)
    exact ⟨hTarget, _, List.mem_singleton_self _, hEncodes⟩
  | _ => cases h

theorem expansion?_of_transfer? {m : Mnemonic} {o o₂ : Operand Mode}
    (h : transfer? ⟨m, o, o₂⟩ = some t) : expansion? s ⟨m, o, o₂⟩ = none := by
  cases m with
  | djnz => rfl
  | jr =>
    obtain ⟨opcode, hOpcode, -⟩ := Option.map_eq_some_iff.mp h
    show (farJump _).map _ = none
    rw [farJump_eq_none hOpcode]
    rfl
  | _ => cases h

/-- **What is written for a relative transfer** is its encoding. -/
theorem writes_transfer (h : transfer? i = some t) (hFinish : finish family site i a = .ok () e) :
    (conditional i).2.mode = .relative ∧ ∃ form ∈ t.forms, ∃ items,
      form.Encodes t.target (a.output.positionExpr site.span) items ∧ Writes items a e := by
  have hOutput := writes_finish hFinish
  rw [show family.expansion? (setting site a) i = none from expansion?_of_transfer? h] at hOutput
  obtain ⟨items, hNative, hWrites⟩ := hOutput
  obtain ⟨hMode, form, hForm, hEncodes⟩ := encodes_native h (mode_of_finish hFinish) hNative
  exact ⟨hMode, form, hForm, items, hEncodes, hWrites⟩

-- --------
-- Operands
-- --------

/-- The operands at the cursor name the target of a transfer. -/
inductive Aimed (scope : Scope) (c : Cursor) (target : Expr) : Prop
  | plain {c'} (hTarget : Expr.parse scope 0 c = .done target c')
  /-- A condition stands in front of it. -/
  | conditional {name cc t c₁ c₂} (hName : c.peek.lexeme.name? = some name)
      (hCondition : named? Condition.names name = some cc)
      (hComma : c.next.eat? (.mark .comma) = some (t, c₁))
      (hTarget : Expr.parse scope 0 c₁ = .done target c₂)

section

variable {scope : Scope} {machine : Machine Feature} {request : Request Mode} {allowed : Modes}
  {c c' : Cursor} {o : Operand Mode} {name : String} {span : Span}

/-- A name is no target, and it is a condition only if it is the name of one. -/
theorem namedOperand?_eq_some (h : namedOperand? allowed name span = some o) :
    o.mode ≠ .relative ∧ (o.mode = .condition → ∃ cc, named? Condition.names name = some cc) := by
  simp only [namedOperand?, Option.orElse_eq_orElse, Option.orElse_eq_or, Option.or_eq_some_iff,
    Option.filter_eq_some_iff, Option.map_eq_some_iff, Option.ite_none_right_eq_some,
    Option.some.injEq] at h
  rcases h with ⟨⟨r, -, rfl⟩, -⟩ | ⟨-, ⟨⟨cc, hcc, rfl⟩, -⟩ | ⟨-, ⟨⟨r, -, rfl⟩, -⟩ |
    ⟨-, ⟨⟨r, -, rfl⟩, -⟩ | ⟨-, ⟨⟨r, -, rfl⟩, -⟩ | ⟨-, ⟨-, rfl⟩ | ⟨-, ⟨-, rfl⟩ | ⟨-, ⟨r, -, rfl⟩ |
      ⟨-, r, -, rfl⟩⟩⟩⟩⟩⟩⟩⟩
  · exact ⟨nofun, nofun⟩
  · exact ⟨nofun, fun _ => ⟨cc, hcc⟩⟩
  all_goals exact ⟨nofun, nofun⟩

theorem named_eq_done (h : named allowed c = .done o c') :
    o.mode ≠ .relative ∧ (o.mode = .condition → c' = c.next ∧
      ∃ name cc, c.peek.lexeme.name? = some name ∧ named? Condition.names name = some cc) := by
  unfold named at h
  rw [Parser.bind_of_done (show Parser.advance c = .done c.peek c.next from rfl)] at h
  cases hNamed : c.peek.lexeme.name?.bind (namedOperand? allowed · c.peek.span) with
  | none =>
    rw [hNamed] at h
    exact absurd h Parser.fail_ne_done
  | some found =>
    rw [hNamed] at h
    obtain ⟨rfl, rfl⟩ := Parser.atEnd_eq_done h
    obtain ⟨name, hName, hOperand⟩ := Option.bind_eq_some_iff.mp hNamed
    obtain ⟨hRelative, hCondition⟩ := namedOperand?_eq_some hOperand
    refine ⟨hRelative, fun hMode => ⟨rfl, name, ?_⟩⟩
    obtain ⟨cc, hcc⟩ := hCondition hMode
    exact ⟨cc, hName, hcc⟩

theorem mode_of_registerIndirect (h : registerIndirect c = .done o c') :
    o.mode = .ioPortC ∨ o.mode = .registerIndirect := by
  obtain ⟨opening, c₁, -, hRest⟩ := Parser.bind_eq_done.mp h
  obtain ⟨token, c₂, -, hRest⟩ := Parser.bind_eq_done.mp hRest
  obtain ⟨closing, c₃, -, hRest⟩ := Parser.bind_eq_done.mp hRest
  cases hName : token.lexeme.name? with
  | none =>
    simp only [hName] at hRest
    exact absurd hRest Parser.fail_ne_done
  | some name =>
    simp only [hName] at hRest
    by_cases hPort : Text.sameWord name "c" = true
    · rw [if_pos hPort] at hRest
      obtain ⟨rfl, -⟩ := Parser.atEnd_eq_done hRest
      exact .inl rfl
    · rw [if_neg hPort] at hRest
      cases hPair : named? Pair.names name with
      | none =>
        simp only [hPair] at hRest
        exact absurd hRest Parser.fail_ne_done
      | some p =>
        simp only [hPair] at hRest
        obtain ⟨rfl, -⟩ := Parser.atEnd_eq_done hRest
        exact .inr rfl

theorem mode_of_indexed (h : indexed scope c = .done o c') : o.mode = .indexed := by
  obtain ⟨opening, c₁, -, hRest⟩ := Parser.bind_eq_done.mp h
  obtain ⟨token, c₂, -, hRest⟩ := Parser.bind_eq_done.mp hRest
  cases hIndex : token.lexeme.name?.bind (named? Index.names) with
  | none =>
    simp only [hIndex] at hRest
    exact absurd hRest Parser.fail_ne_done
  | some x =>
    simp only [hIndex] at hRest
    obtain ⟨distance, c₃, -, hRest⟩ := Parser.bind_eq_done.mp hRest
    obtain ⟨closing, c₄, -, hRest⟩ := Parser.bind_eq_done.mp hRest
    obtain ⟨rfl, -⟩ := Parser.atEnd_eq_done hRest
    rfl

theorem mode_of_memory (h : memory scope allowed c = .done o c') :
    o.mode = .ioPort ∨ o.mode = .memory := by
  obtain ⟨address, c₁, -, hRest⟩ := Parser.bind_eq_done.mp h
  by_cases hParen : address.isParen = true
  · simp only [hParen, if_true] at hRest
    obtain ⟨rfl, -⟩ := Parser.atEnd_eq_done hRest
    exact ite_eq_or_eq _ _ _
  · simp only [hParen, Bool.false_eq_true, if_false] at hRest
    exact absurd hRest Parser.fail_ne_done

/-- Neither a target nor a condition stands in parentheses. -/
theorem parenthesized_eq_done (h : parenthesized scope allowed c = .done o c') :
    o.mode ≠ .relative ∧ o.mode ≠ .condition := by
  have hModes : o.mode ∈ [Mode.ioPortC, .registerIndirect, .indexed, .ioPort, .memory] := by
    rcases Parser.orElse_eq_done h with hRegister | ⟨-, hRest⟩
    · rcases mode_of_registerIndirect hRegister with hMode | hMode <;> simp [hMode]
    · rcases Parser.orElse_eq_done hRest with hIndexed | ⟨-, hMemory⟩
      · simp [mode_of_indexed (Parser.when_eq_done.mp hIndexed).2]
      · rcases mode_of_memory (Parser.when_eq_done.mp hMemory).2 with hMode | hMode <;> simp [hMode]
  constructor
  · intro hMode
    rw [hMode] at hModes
    revert hModes
    decide
  · intro hMode
    rw [hMode] at hModes
    revert hModes
    decide

/-- Where an operand comes from. -/
theorem grammar_eq_done (h : grammar scope machine request c = .done o c') :
    o.mode = .none ∨ named request.allowed c = .done o c' ∨
      parenthesized scope request.allowed c = .done o c' ∨ plain scope request.allowed c = .done o c' := by
  change (if c.atOperandEnd then _ else _ : Parser (Operand Mode)) c = _ at h
  split at h
  · obtain ⟨-, hDone⟩ := Parser.when_eq_done.mp h
    obtain ⟨rfl, -⟩ := Parser.pure_eq_done.mp hDone
    exact .inl rfl
  · rcases Parser.orElse_eq_done h with hNamed | ⟨-, hRest⟩
    · exact .inr (.inl hNamed)
    · rcases Parser.orElse_eq_done hRest with hParenthesized | ⟨-, hPlain⟩
      · exact .inr (.inr (.inl (Parser.when_eq_done.mp hParenthesized).2))
      · exact .inr (.inr (.inr hPlain))

theorem plain_eq_done (h : plain scope allowed c = .done o c') :
    Expr.parse scope 0 c = .done (o.value 0) c' ∧ o.mode ≠ .condition := by
  obtain ⟨target, mid, hTarget, hDone⟩ := Parser.bind_eq_done.mp h
  obtain ⟨rfl, rfl⟩ := Parser.pure_eq_done.mp hDone
  refine ⟨hTarget, ?_⟩
  show (if Mode.address ∈ allowed then Mode.address else _) ≠ _
  split
  · nofun
  · split <;> nofun

/-- A target is read as it stands there. -/
theorem target_of_grammar (hMode : o.mode = .relative)
    (h : grammar scope machine request c = .done o c') :
    Expr.parse scope 0 c = .done (o.value 0) c' := by
  rcases grammar_eq_done h with hNone | hNamed | hParenthesized | hPlain
  · rw [hMode] at hNone
    cases hNone
  · exact absurd hMode (named_eq_done hNamed).1
  · exact absurd hMode (parenthesized_eq_done hParenthesized).1
  · exact (plain_eq_done hPlain).1

/-- A condition is one word. -/
theorem condition_of_grammar (hMode : o.mode = .condition)
    (h : grammar scope machine request c = .done o c') :
    c' = c.next ∧
      ∃ name cc, c.peek.lexeme.name? = some name ∧ named? Condition.names name = some cc := by
  rcases grammar_eq_done h with hNone | hNamed | hParenthesized | hPlain
  · rw [hMode] at hNone
    cases hNone
  · exact (named_eq_done hNamed).2 hMode
  · exact absurd hMode (parenthesized_eq_done hParenthesized).2
  · exact absurd hMode (plain_eq_done hPlain).2

/-- **The target is the one in the text.** -/
theorem aimed_of_operands {w : Pending Mnemonic Feature} {first second : Operand Mode} {stop : Cursor}
    (h : transfer? ⟨w.mnemonic, first, second⟩ = some t)
    (hOperands : w.operands family = .ok (first, second, stop))
    (hRelative : (conditional ⟨w.mnemonic, first, second⟩).2.mode = .relative) :
    Aimed (w.scope family) w.state.cursor t.target := by
  obtain ⟨mid, hFirst, hSecond⟩ := resolves_of_resolveOperands hOperands
  obtain ⟨hGrammar, hMode⟩ := Operand.grammar_of_resolve (by nofun) hFirst
  change grammar (w.scope family) w.state.machine _ _ = _ at hGrammar
  rw [target_of_transfer? h hMode]
  rcases conditional_cases ⟨w.mnemonic, first, second⟩ with hPlain | ⟨hCondition, cc, hBehind⟩
  · rw [hPlain] at hRelative ⊢
    exact .plain (target_of_grammar hRelative hGrammar)
  · rw [hBehind] at hRelative ⊢
    obtain ⟨rfl, name, cc, hName, hNamed⟩ := condition_of_grammar hCondition hGrammar
    rcases hSecond with ⟨rfl, -⟩ | ⟨allowed, comma, c₁, -, hComma, hOther⟩
    · cases hRelative
    · obtain ⟨hTarget, -⟩ := Operand.grammar_of_resolve (by nofun) hOther
      change grammar (w.scope family) w.state.machine _ _ = _ at hTarget
      exact .conditional hName hNamed hComma (target_of_grammar hRelative hTarget)

end

end CrossAsm.Z80
