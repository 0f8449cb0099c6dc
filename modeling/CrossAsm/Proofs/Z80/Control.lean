import CrossAsm.Proofs.Control
import CrossAsm.Proofs.Operand.Resolution
import CrossAsm.Proofs.Z80.Execution

/-!
# CrossAsm — jumps and calls of the Z80 family

A jump or call on a condition goes to its second operand if the condition holds, and on if it does not. This
is so for the native ones, for JR on a condition that it has no opcode for, and for JP to a register, where
a jump on the inverse condition goes around it.

* `Condition.holds` — when a condition holds.
* `jumps` — the jumps and calls in a sequence of bytes, with what they lead to.
* `Aims` — what the operand of a jump or call stands for.
* `leads_of_conditional` — where the code of a jump or call on a condition leads.
-/

namespace CrossAsm.Z80

-- --------
-- Jumps and calls
-- --------

/-- Where control goes. -/
inductive Target where
  | address (a : BitVec 16)
  /-- The address in HL. -/
  | hl
  | index (x : Index)
  /-- An address, with the way back on the stack. -/
  | call (a : BitVec 16)
deriving DecidableEq

/-- Whether a condition holds. -/
def Condition.holds (flags : Flags) (cc : Condition) : Bool :=
  match cc.code with
  | 0 => !flags.zero
  | 1 => flags.zero
  | 2 => !flags.carry
  | 3 => flags.carry
  | 4 => !flags.parity
  | 5 => flags.parity
  | 6 => !flags.sign
  | _ => flags.sign

/-- The jumps of two bytes, at an address. -/
def jump2? (pc : BitVec 16) (opcode operand : UInt8) : Option (Jump Condition Target) :=
  if opcode = 0x18 then some ⟨none, .address (pc + 2 + extended operand)⟩
  else if opcode &&& 0xe7 = 0x20 then
    some ⟨some ⟨opcode >>> 3 &&& 3⟩, .address (pc + 2 + extended operand)⟩
  else (Index.ofLead? opcode).bind fun x => if operand = 0xe9 then some ⟨none, .index x⟩ else none

/-- The jumps and calls of three bytes. -/
def jump3? (opcode : UInt8) (a : BitVec 16) : Option (Jump Condition Target) :=
  if opcode = 0xc3 then some ⟨none, .address a⟩
  else if opcode = 0xcd then some ⟨none, .call a⟩
  else if opcode &&& 0xc7 = 0xc2 then some ⟨some ⟨opcode >>> 3 &&& 7⟩, .address a⟩
  else if opcode &&& 0xc7 = 0xc4 then some ⟨some ⟨opcode >>> 3 &&& 7⟩, .call a⟩
  else none

/-- The jumps and calls in a sequence of bytes that starts at an address. -/
def jumps (pc : BitVec 16) : List UInt8 → Option (List (Jump Condition Target))
  | [] => some []
  | opcode :: rest =>
    if opcode = 0xe9 then (jumps (pc + 1) rest).map (⟨none, .hl⟩ :: ·)
    else
      match rest with
      | [] => none
      | second :: rest =>
        match jump2? pc opcode second with
        | some jump => (jumps (pc + 2) rest).map (jump :: ·)
        | none =>
          match rest with
          | [] => none
          | third :: rest =>
            (jump3? opcode (joined second third)).bind fun jump => (jumps (pc + 3) rest).map (jump :: ·)

/-- What the operand of a jump or call stands for when the program is linked. -/
inductive Aims (t : SymbolTable) (base : Value) : Mnemonic → View → Target → Prop
  | jp {e : Expr} {v : Value} (h : t.evaluate base e = .ok v) :
    Aims t base .jp (.address e) (.address v.word)
  | jr {e : Expr} {v : Value} (h : t.evaluate base e = .ok v) :
    Aims t base .jr (.relative e) (.address v.word)
  | call {e : Expr} {v : Value} (h : t.evaluate base e = .ok v) :
    Aims t base .call (.address e) (.call v.word)
  | hl : Aims t base .jp (.register .m) .hl
  | index {x : Index} {d : Expr} (h : t.evaluate base d = .ok 0) : Aims t base .jp (.indexed x d) (.index x)

section Reading

variable {cc : Condition} (hCode : cc.code ∈ shape.registers .condition) (pc : BitVec 16)

include hCode

theorem condition_cases : cc = .nz ∨ cc = .z ∨ cc = .nc ∨ cc = .c ∨ cc = .po ∨ cc = .pe ∨ cc = .p ∨ cc = .m := by
  obtain ⟨code⟩ := cc
  simpa [shape] using hCode

theorem holds_inverse (flags : Flags) : cc.inverse.holds flags = !cc.holds flags := by
  -- Of each two conditions, the first holds if a flag is clear.
  rcases condition_cases hCode with rfl | rfl | rfl | rfl | rfl | rfl | rfl | rfl
  · exact (Bool.not_not _).symm
  · rfl
  · exact (Bool.not_not _).symm
  · rfl
  · exact (Bool.not_not _).symm
  · rfl
  · exact (Bool.not_not _).symm
  · rfl

theorem jumps_jr (hShort : cc.isShort = true) (d : UInt8) (rest : List UInt8) :
    jumps pc (pack 0x20 cc.code 3 :: d :: rest) =
      (jumps (pc + 2) rest).map (⟨some cc, .address (pc + 2 + extended d)⟩ :: ·) := by
  rcases condition_cases hCode with rfl | rfl | rfl | rfl | rfl | rfl | rfl | rfl
  · rfl
  · rfl
  · rfl
  · rfl
  all_goals cases hShort

theorem jumps_jp (low high : UInt8) (rest : List UInt8) :
    jumps pc (pack 0xc2 cc.code 3 :: low :: high :: rest) =
      (jumps (pc + 3) rest).map (⟨some cc, .address (joined low high)⟩ :: ·) := by
  rcases condition_cases hCode with rfl | rfl | rfl | rfl | rfl | rfl | rfl | rfl <;> rfl

theorem jumps_call (low high : UInt8) :
    jumps pc [pack 0xc4 cc.code 3, low, high] = some [⟨some cc, .call (joined low high)⟩] := by
  rcases condition_cases hCode with rfl | rfl | rfl | rfl | rfl | rfl | rfl | rfl <;> rfl

end Reading

-- --------
-- Encodings
-- --------

section Encodings

variable {i : Instr} {cc : Condition} {o : Operand Mode} {items : List Item} {setting : Setting Feature}

/-- A condition in front of an operand. -/
theorem conditional_of_condition (hFirst : view i.first = .condition cc) (hSecond : i.second.mode ≠ .none) :
    conditional i = (some cc, i.second) := by
  unfold conditional
  simp only [hFirst]
  exact if_neg hSecond

theorem native_jp (h : i.mnemonic = .jp) : native setting i = jumpItems i := by
  unfold native
  rw [h]

theorem native_jr (h : i.mnemonic = .jr) : native setting i = relativeItems setting i 0x18 := by
  unfold native
  rw [h]

theorem native_call (h : i.mnemonic = .call) : native setting i = callItems i := by
  unfold native
  rw [h]

theorem jumpItems_of_condition (hConditional : conditional i = (some cc, o))
    (h : jumpItems i = .ok items) :
    ∃ e, view o = .address e ∧ items = [.bytes [pack 0xc2 cc.code 3], .value e .word] := by
  unfold jumpItems at h
  rw [hConditional] at h
  dsimp only at h
  split at h
  · next e hView => exact ⟨e, hView, (Except.ok.inj h).symm⟩
  · cases h

theorem relativeItems_of_condition (opcode : UInt8) (hConditional : conditional i = (some cc, o))
    (h : relativeItems setting i opcode = .ok items) :
    ∃ e, view o = .relative e ∧ cc.isShort = true ∧
      items = [.bytes [pack 0x20 cc.code 3], .value (e.relativeTo setting.counter 2) .signedByte] := by
  unfold relativeItems at h
  rw [hConditional] at h
  dsimp only at h
  split at h
  · next e hNone => cases hNone
  · next e cc' hView hSome =>
    obtain rfl := Option.some.inj hSome
    split at h
    · next hShort => exact ⟨e, hView, hShort, (Except.ok.inj h).symm⟩
    · cases h
  · cases h

theorem callItems_of_condition (hConditional : conditional i = (some cc, o))
    (h : callItems i = .ok items) :
    ∃ e, view o = .address e ∧ items = [.bytes [pack 0xc4 cc.code 3], .value e .word] := by
  unfold callItems at h
  rw [hConditional] at h
  dsimp only at h
  split at h
  · next e hNone => cases hNone
  · next e cc' hView hSome =>
    obtain rfl := Option.some.inj hSome
    exact ⟨e, hView, (Except.ok.inj h).symm⟩
  · cases h

/-- A jump to a register. -/
theorem jumpItems_of_register (hConditional : conditional i = (none, o)) (h : jumpItems i = .ok items)
    (hView : view o = .register .m ∨ ∃ x d, view o = .indexed x d) :
    view o = .register .m ∧ items = [.bytes [0xe9]] ∨
      ∃ x d, view o = .indexed x d ∧ d.value? = some 0 ∧ items = [.bytes [x.lead, 0xe9]] := by
  unfold jumpItems at h
  rw [hConditional] at h
  dsimp only at h
  obtain hView | ⟨x, d, hView⟩ := hView
  · rw [hView] at h
    exact .inl ⟨hView, (Except.ok.inj h).symm⟩
  · rw [hView] at h
    dsimp only at h
    split at h
    · next hZero => exact .inr ⟨x, d, hView, hZero, (Except.ok.inj h).symm⟩
    · cases h

theorem farJump_of_condition {parts : List (Part Mnemonic Mode)}
    (hConditional : conditional i = (some cc, o)) (h : farJump i = some parts) :
    ∃ e, view o = .relative e ∧ parts =
      [part .jp (.withRegister .condition cc.code i.first.span) (.withValue .address e o.span)] := by
  unfold farJump at h
  rw [hConditional] at h
  dsimp only at h
  split at h
  · next e hView =>
    split at h
    · cases h
    · exact ⟨e, hView, (Option.some.inj h).symm⟩
  · cases h

end Encodings

-- --------
-- Code
-- --------

section Code

variable {i : Instr} {cc : Condition} {o : Operand Mode} {items : List Item} {site : Site Feature}
  {a e : Encoder} {table : SymbolTable} {base start : Value} {code : List UInt8}

/-- The code of a jump to a register. -/
theorem jumps_of_register (hConditional : conditional i = (none, o)) (h : jumpItems i = .ok items)
    (hView : view o = .register .m ∨ ∃ x d, view o = .indexed x d)
    (hLinked : Item.Linked table base items code) :
    ∃ target, Aims table base .jp (view o) target ∧ ∀ pc, jumps pc code = some [⟨none, target⟩] := by
  obtain ⟨hView, rfl⟩ | ⟨x, d, hView, hZero, rfl⟩ := jumpItems_of_register hConditional h hView
  · rw [Item.Linked.of_bytes [_] hLinked, hView]
    exact ⟨.hl, .hl, fun _ => rfl⟩
  · rw [Item.Linked.of_bytes [_] hLinked, hView]
    refine ⟨.index x, .index (Expr.evaluate_of_value? hZero), fun _ => ?_⟩
    cases x <;> rfl

/-- The jump over another one. -/
def skip (cc : Condition) (label : Expr) (span : Span) : Instr :=
  if cc.isShort then ⟨.jr, .withRegister .condition cc.code span, .withValue .relative label span⟩
  else ⟨.jp, .withRegister .condition cc.code span, .withValue .address label span⟩

/-- The code of a jump over another one, to an address that is known in the end. -/
theorem jumps_of_skip {label : Expr} {past : Value} {items' : List Item} {setting : Setting Feature}
    {span : Span} (hCode : cc.code ∈ shape.registers .condition)
    (hLabel : 0 < code.length → table.evaluate base label = .ok past)
    (hCounter : 0 < code.length → table.evaluate base setting.counter = .ok start)
    (h : native setting (skip cc label span) = .ok items)
    (hLinked : Item.Linked table base (items ++ items') code) :
    ∃ pc rest, Item.Linked table base items' rest ∧
      jumps start.word code = (jumps pc rest).map (⟨some cc, .address past.word⟩ :: ·) := by
  unfold skip at h
  cases hShort : cc.isShort with
  | true =>
    rw [if_pos hShort] at h
    have hConditional : conditional ⟨.jr, .withRegister .condition cc.code span,
      .withValue .relative label span⟩ = (some cc, .withValue .relative label span) := rfl
    obtain ⟨target, hTarget, -, rfl⟩ := relativeItems_of_condition 0x18 hConditional h
    obtain rfl := View.relative.inj hTarget
    cases hLinked with
    | bytes hFront =>
    obtain ⟨v, d, out, hValue, hReaches, rfl, hBehind⟩ := hFront.of_distance (hCounter (Nat.succ_pos _))
    obtain rfl := Except.ok.inj (hValue.symm.trans (hLabel (Nat.succ_pos _)))
    refine ⟨start.word + 2, out, hBehind, ?_⟩
    rw [← hReaches]
    exact jumps_jr hCode start.word hShort d out
  | false =>
    rw [if_neg (by simp [hShort])] at h
    have hConditional : conditional ⟨.jp, .withRegister .condition cc.code span,
      .withValue .address label span⟩ = (some cc, .withValue .address label span) := rfl
    obtain ⟨target, hTarget, rfl⟩ := jumpItems_of_condition hConditional h
    obtain rfl := View.address.inj hTarget
    cases hLinked with
    | bytes hFront =>
    obtain ⟨v, low, high, out, hValue, hWord, rfl, hBehind⟩ := hFront.of_word
    obtain rfl := Except.ok.inj (hValue.symm.trans (hLabel (Nat.succ_pos _)))
    refine ⟨start.word + 3, out, hBehind, ?_⟩
    rw [← hWord]
    exact jumps_jp hCode start.word low high out

variable (hFinish : Encoder.finish family site i a = .ok () e)
  (hPlaced : Encoder.Placed table base a e start code) (hConditional : conditional i = (some cc, o))
  (hCode : cc.code ∈ shape.registers .condition)

include hFinish hPlaced hConditional hCode

/-- The code of a jump to a register on a condition. -/
theorem jumps_of_detour (hMnemonic : i.mnemonic = .jp)
    (hView : view o = .register .m ∨ ∃ x d, view o = .indexed x d) :
    ∃ target, Aims table base .jp (view o) target ∧
      jumps start.word code =
        some [⟨some cc.inverse, .address (behind start code)⟩, ⟨none, target⟩] := by
  have hExpansion : family.expansion? (Encoder.setting site a) i = some ⟨true, true,
      [.native (skip cc.inverse (.symbol a.symbols.nextLabel site.span) i.first.span),
       part .jp o (.bare .none i.first.span), .label]⟩ := by
    have hSkip (s : Setting Feature) :
        (if cc.inverse.isShort then
          part .jr (.withRegister .condition cc.inverse.code i.first.span)
            (.withValue .relative s.label i.first.span)
        else
          part .jp (.withRegister .condition cc.inverse.code i.first.span)
            (.withValue .address s.label i.first.span)) =
          .native (skip cc.inverse s.label i.first.span) := by
      unfold skip
      split <;> rfl
    show expansion? _ i = _
    unfold expansion?
    rw [hMnemonic]
    simp only [conditionalJump, hConditional, hSkip]
    obtain hView | ⟨x, d, hView⟩ := hView <;> rw [hView] <;> rfl
  obtain ⟨at₁, at₂, items, items', hOutput, hSkip, hJump, hWrites, hLabel⟩ :=
    Encoder.detour_of_finish hFinish hExpansion
  have hLinked := hPlaced.linked _ hWrites
  have hPast (hPos : 0 < code.length) := hPlaced.evaluate_label hWrites hPos hLabel site.span
  have hCounter (hPos : 0 < code.length) :
      table.evaluate base (Encoder.setting site at₁).counter = .ok start := by
    show table.evaluate base (at₁.output.positionExpr site.span) = _
    rw [hOutput]
    exact hPlaced.evaluate_counter hPos site.span
  obtain ⟨pc, rest, hRest, hSkipped⟩ := jumps_of_skip (code_inverse hCode) hPast hCounter hSkip hLinked
  have hNone : conditional ⟨.jp, o, .bare .none i.first.span⟩ = (none, o) := by
    unfold conditional
    obtain hView | ⟨x, d, hView⟩ := hView <;> simp only [hView]
  obtain ⟨target, hAims, hJumps⟩ := jumps_of_register hNone hJump hView hRest
  refine ⟨target, hAims, ?_⟩
  rw [hSkipped, hJumps]
  rfl

/-- The code of a jump on a condition that is not expanded. -/
theorem jumps_of_native_jp (hMnemonic : i.mnemonic = .jp)
    (hNone : expansion? (Encoder.setting site a) i = none) :
    ∃ target, Aims table base .jp (view o) target ∧
      jumps start.word code = some [⟨some cc, target⟩] := by
  obtain ⟨items, hNative, hWrites⟩ := Encoder.native_of_finish hFinish hNone
  have hItems : jumpItems i = .ok items := (native_jp hMnemonic).symm.trans hNative
  obtain ⟨target, hView, rfl⟩ := jumpItems_of_condition hConditional hItems
  cases hPlaced.linked _ hWrites with
  | bytes hRest =>
  obtain ⟨v, low, high, out, hValue, hWord, rfl, hEnd⟩ := hRest.of_word
  cases hEnd
  rw [hView]
  refine ⟨_, .jp hValue, ?_⟩
  rw [← hWord]
  exact jumps_jp hCode start.word low high []

theorem jumps_of_jr (hMnemonic : i.mnemonic = .jr) :
    ∃ target, Aims table base .jr (view o) target ∧
      jumps start.word code = some [⟨some cc, target⟩] := by
  have hExpansion (s : Setting Feature) : expansion? s i = (farJump i).map (⟨true, false, ·⟩) := by
    unfold expansion?
    rw [hMnemonic]
  cases hFar : farJump i with
  | none =>
    have hNone : family.expansion? (Encoder.setting site a) i = none := by
      show expansion? _ i = none
      rw [hExpansion, hFar]
      rfl
    obtain ⟨items, hNative, hWrites⟩ := Encoder.native_of_finish hFinish hNone
    have hItems : relativeItems (Encoder.setting site a) i 0x18 = .ok items :=
      (native_jr hMnemonic).symm.trans hNative
    obtain ⟨target, hView, hShort, rfl⟩ := relativeItems_of_condition 0x18 hConditional hItems
    have hLinked := hPlaced.linked _ hWrites
    have hPos : 0 < code.length := by
      rw [hLinked.length_eq]
      exact Nat.succ_pos _
    have hCounter := hPlaced.evaluate_counter hPos site.span
    cases hLinked with
    | bytes hRest =>
    obtain ⟨v, d, out, hValue, hReaches, rfl, hEnd⟩ := hRest.of_distance hCounter
    cases hEnd
    rw [hView]
    refine ⟨_, .jr hValue, ?_⟩
    rw [← hReaches]
    exact jumps_jr hCode start.word hShort d []
  | some parts =>
    have hSome : family.expansion? (Encoder.setting site a) i = some ⟨true, false, parts⟩ := by
      show expansion? _ i = _
      rw [hExpansion, hFar]
      rfl
    obtain ⟨target, hView, rfl⟩ := farJump_of_condition hConditional hFar
    have hLinked := hPlaced.linked_fixed hFinish hSome (.native (fun _ => rfl) .nil)
    cases hLinked with
    | bytes hRest =>
    obtain ⟨v, low, high, out, hValue, hWord, rfl, hEnd⟩ := hRest.of_word
    cases hEnd
    rw [hView]
    refine ⟨_, .jr hValue, ?_⟩
    rw [← hWord]
    exact jumps_jp hCode start.word low high []

theorem jumps_of_call (hMnemonic : i.mnemonic = .call) :
    ∃ target, Aims table base .call (view o) target ∧
      jumps start.word code = some [⟨some cc, target⟩] := by
  have hNone : expansion? (Encoder.setting site a) i = none := by
    unfold expansion?
    rw [hMnemonic]
  obtain ⟨items, hNative, hWrites⟩ := Encoder.native_of_finish hFinish hNone
  have hItems : callItems i = .ok items := (native_call hMnemonic).symm.trans hNative
  obtain ⟨target, hView, rfl⟩ := callItems_of_condition hConditional hItems
  cases hPlaced.linked _ hWrites with
  | bytes hRest =>
  obtain ⟨v, low, high, out, hValue, hWord, rfl, hEnd⟩ := hRest.of_word
  cases hEnd
  rw [hView]
  refine ⟨_, .call hValue, ?_⟩
  rw [← hWord]
  exact jumps_call hCode start.word low high

/-- **Where a jump or call on a condition leads**: to its second operand if the condition holds, and on to
what is behind it if not. -/
theorem leads_of_conditional (hMnemonic : i.mnemonic = .jp ∨ i.mnemonic = .jr ∨ i.mnemonic = .call) :
    ∃ target list, Aims table base i.mnemonic (view o) target ∧ jumps start.word code = some list ∧
      ∀ flags, Jump.leads (Condition.holds flags) (.address (behind start code)) list =
        if cc.holds flags then target else .address (behind start code) := by
  rcases hMnemonic with hMnemonic | hMnemonic | hMnemonic
  · rw [hMnemonic]
    by_cases hView : view o = .register .m ∨ ∃ x d, view o = .indexed x d
    · obtain ⟨target, hAims, hJumps⟩ := jumps_of_detour hFinish hPlaced hConditional hCode hMnemonic hView
      exact ⟨target, _, hAims, hJumps, fun flags => Jump.leads_detour (holds_inverse hCode flags) _ _⟩
    · have hNone : expansion? (Encoder.setting site a) i = none := by
        unfold expansion?
        rw [hMnemonic]
        simp only [conditionalJump, hConditional]
        split
        · next hMemory => exact absurd (.inl hMemory) hView
        · next x d hIndexed => exact absurd (.inr ⟨x, d, hIndexed⟩) hView
        · rfl
      obtain ⟨target, hAims, hJumps⟩ :=
        jumps_of_native_jp hFinish hPlaced hConditional hCode hMnemonic hNone
      exact ⟨target, _, hAims, hJumps, fun flags => rfl⟩
  · rw [hMnemonic]
    obtain ⟨target, hAims, hJumps⟩ := jumps_of_jr hFinish hPlaced hConditional hCode hMnemonic
    exact ⟨target, _, hAims, hJumps, fun flags => rfl⟩
  · rw [hMnemonic]
    obtain ⟨target, hAims, hJumps⟩ := jumps_of_call hFinish hPlaced hConditional hCode hMnemonic
    exact ⟨target, _, hAims, hJumps, fun flags => rfl⟩

end Code

end CrossAsm.Z80
