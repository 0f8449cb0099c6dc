import CrossAsm.Proofs.Z80.Control

/-!
# CrossAsm — second operands of the Z80 family that may be left out

Jumps and calls take one operand, or a condition and a target; accumulator operations take one, or the
accumulator and another. A second operand that the source has is used if the first one is a condition, and in
accumulator operations if there is anything behind the comma. Otherwise it is passed over, and the statement is
encoded as if it were not there.

* `Keeps` — the second operand is there and the code goes by it.
* `second_operand_is_kept_or_ignored` — what becomes of what stands behind a comma.
-/

namespace CrossAsm

/-- Instructions that are encoded alike are written alike. -/
theorem Encoder.finish_congr {Mnemonic Mode Feature : Type} [Flag Mode] [Flag Feature]
    {F : Family Mnemonic Mode Feature} {site : Site Feature} {i i' : Instruction Mnemonic Mode}
    (hMnemonic : i'.mnemonic = i.mnemonic)
    (hCheck : checkOperands F site i' = checkOperands F site i)
    (hExpansion : ∀ s, F.expansion? s i' = F.expansion? s i) (hNative : ∀ s, F.native s i' = F.native s i) :
    finish F site i' = finish F site i := by
  have hWrite : writeNative F site i' = writeNative F site i := by
    unfold writeNative
    simp only [hNative]
  unfold finish
  rw [hCheck, hMnemonic, hWrite]
  simp only [hExpansion]

namespace Z80

-- --------
-- Without a second operand
-- --------

/-- An instruction without its second operand. -/
def alone (i : Instr) (span : Span) : Instr := ⟨i.mnemonic, i.first, .bare .none span⟩

variable {i : Instr} {s : Setting Feature} {items : List Item} {site : Site Feature} {span : Span}

/-- The mnemonics of jumps and calls that take a condition. -/
def IsJump (m : Mnemonic) : Prop := m = .jp ∨ m = .jr ∨ m = .call

theorem IsJump.ne_alu {m : Mnemonic} (h : IsJump m) (op : Alu) : m ≠ .alu op := by
  rcases h with rfl | rfl | rfl <;> exact Mnemonic.noConfusion

/-- The second operand of the mnemonic may be left out. -/
def IsOptional (m : Mnemonic) : Prop := ∃ allowed, (entry m).second = some allowed ∧ Mode.none ∈ allowed

theorem isOptional_iff (m : Mnemonic) : IsOptional m ↔ IsJump m ∨ ∃ op, m = .alu op := by
  constructor
  · rintro ⟨allowed, hSecond, hNone⟩
    cases m with
    | jp => exact .inl (.inl rfl)
    | jr => exact .inl (.inr (.inl rfl))
    | call => exact .inl (.inr (.inr rfl))
    | alu op => exact .inr ⟨op, rfl⟩
    | ld | ex | bit | input | output | nextreg | mul =>
      cases hSecond
      exact absurd hNone (by decide)
    | _ => cases hSecond
  · rintro ((rfl | rfl | rfl) | ⟨op, rfl⟩)
    · exact ⟨_, rfl, by decide⟩
    · exact ⟨_, rfl, by decide⟩
    · exact ⟨_, rfl, by decide⟩
    · exact ⟨_, rfl, by decide⟩

theorem checkOperands_alone (hOptional : IsOptional i.mnemonic)
    (h : Encoder.checkOperands family site i = .ok ()) :
    Encoder.checkOperands family site (alone i span) = .ok () := by
  obtain ⟨allowed, hSecond, hNone⟩ := hOptional
  have hAbsent : Encoder.checkOperand family site i.mnemonic 1 allowed (.bare .none span) = .ok () := by
    have hMode : (Operand.bare Mode.none span).mode ∈ allowed := hNone
    unfold Encoder.checkOperand
    rw [if_neg (not_not_intro hMode)]
    exact if_pos (FlagSet.includes_iff.mpr nofun)
  unfold Encoder.checkOperands at h ⊢
  dsimp only at h
  split at h
  · cases h
  · next hFirst =>
    have hEntry : (family.entry (alone i span).mnemonic).second = some allowed := hSecond
    have hFirst' : Encoder.checkOperand family site (alone i span).mnemonic 0
        (family.entry (alone i span).mnemonic).first (alone i span).first = .ok () := hFirst
    simp only [hFirst', hEntry]
    exact hAbsent

theorem conditional_of_no_condition (h : ∀ cc, view i.first ≠ .condition cc) :
    conditional i = (none, i.first) := by
  unfold conditional
  split
  · next cc hView => exact absurd hView (h cc)
  · rfl

/-- A jump that is accepted without a condition does not depend on the second operand. -/
theorem native_alone (hJump : IsJump i.mnemonic) (hFirst : ∀ cc, view i.first ≠ .condition cc)
    (h : native s i = .ok items) (s' : Setting Feature) : native s' (alone i span) = native s' i := by
  have hWith : conditional i = (none, i.first) := conditional_of_no_condition hFirst
  have hWithout : conditional (alone i span) = (none, i.first) := conditional_of_no_condition hFirst
  rcases hJump with hMnemonic | hMnemonic | hMnemonic
  · rw [native_jp hMnemonic] at h ⊢
    rw [native_jp (i := alone i span) hMnemonic]
    unfold jumpItems at h ⊢
    rw [hWith] at h
    rw [hWith, hWithout]
    dsimp only at h ⊢
    split at h
    · rfl
    · rfl
    · split at h
      · next hZero => rw [if_pos hZero, if_pos hZero]
      · cases h
    · cases h
  · rw [native_jr hMnemonic] at h ⊢
    rw [native_jr (i := alone i span) hMnemonic]
    unfold relativeItems at h ⊢
    rw [hWith] at h
    rw [hWith, hWithout]
    dsimp only at h ⊢
    split at h
    · rfl
    · next hSome => cases hSome
    · cases h
  · rw [native_call hMnemonic] at h ⊢
    rw [native_call (i := alone i span) hMnemonic]
    unfold callItems at h ⊢
    rw [hWith] at h
    rw [hWith, hWithout]
    dsimp only at h ⊢
    split at h
    · rfl
    · next hSome => cases hSome
    · cases h

/-- Only jumps on a condition are expanded. -/
theorem expansion?_of_unconditional (hJump : IsJump i.mnemonic)
    (hConditional : conditional i = (none, i.first)) : expansion? s i = none := by
  unfold expansion?
  rcases hJump with hMnemonic | hMnemonic | hMnemonic
  · simp [hMnemonic, conditionalJump, hConditional]
  · simp [hMnemonic, farJump, hConditional]
  · simp [hMnemonic]

variable {a e : Encoder}

theorem finish_alone_jump (hJump : IsJump i.mnemonic) (hFirst : ∀ cc, view i.first ≠ .condition cc)
    (hFinish : Encoder.finish family site i a = .ok () e) (span : Span) :
    Encoder.finish family site (alone i span) = Encoder.finish family site i := by
  obtain ⟨hCheck, -⟩ := Encoder.run_of_finish hFinish
  have hExpansion (s : Setting Feature) : expansion? s i = none :=
    expansion?_of_unconditional hJump (conditional_of_no_condition hFirst)
  obtain ⟨items, hItems, -⟩ := Encoder.native_of_finish hFinish (hExpansion _)
  have hWithout : Encoder.checkOperands family site (alone i span) = .ok () :=
    checkOperands_alone ((isOptional_iff _).mpr (.inl hJump)) hCheck
  refine Encoder.finish_congr rfl (hWithout.trans hCheck.symm) ?_ (native_alone hJump hFirst hItems)
  intro s
  have hAlone : expansion? s (alone i span) = none :=
    expansion?_of_unconditional hJump (conditional_of_no_condition hFirst)
  exact hAlone.trans (hExpansion s).symm

theorem finish_alone_alu {op : Alu} (hMnemonic : i.mnemonic = .alu op) (hSecond : i.second.mode = .none)
    (hFinish : Encoder.finish family site i a = .ok () e) (span : Span) :
    Encoder.finish family site (alone i span) = Encoder.finish family site i := by
  obtain ⟨hCheck, -⟩ := Encoder.run_of_finish hFinish
  have hWithout : Encoder.checkOperands family site (alone i span) = .ok () :=
    checkOperands_alone ((isOptional_iff _).mpr (.inr ⟨op, hMnemonic⟩)) hCheck
  have hView : view i.second = .absent := view_eq_absent_iff.mpr hSecond
  refine Encoder.finish_congr rfl (hWithout.trans hCheck.symm) ?_ ?_
  · intro s
    show expansion? s (alone i span) = expansion? s i
    have hAlone : (alone i span).mnemonic = .alu op := hMnemonic
    unfold expansion?
    rw [hAlone, hMnemonic]
  · intro s
    have hAlu (j : Instr) (h : j.mnemonic = .alu op) : native s j = aluItems s j op := by
      unfold native
      rw [h]
    have hOperands : aluOperands (alone i span) = aluOperands i := by
      unfold aluOperands
      rw [hView]
      rfl
    have hUnencodable : unencodable (alone i span) = unencodable i := by
      unfold unencodable
      rw [hSecond]
      rfl
    show native s (alone i span) = native s i
    rw [hAlu _ hMnemonic, hAlu (alone i span) hMnemonic]
    unfold aluItems
    rw [hOperands, hUnencodable]
    rfl

/-- A jump on a condition that is accepted has a target. -/
theorem present_of_condition {cc : Condition} (hJump : IsJump i.mnemonic)
    (hFirst : view i.first = .condition cc) (hFinish : Encoder.finish family site i a = .ok () e) :
    i.second.mode ≠ .none := by
  intro hNone
  have hConditional : conditional i = (none, i.first) := by
    unfold conditional
    simp only [hFirst]
    exact if_pos hNone
  obtain ⟨items, hItems, -⟩ :=
    Encoder.native_of_finish hFinish (expansion?_of_unconditional hJump hConditional)
  have hError : native (Encoder.setting site a) i = .error (unencodable i) := by
    rcases hJump with hMnemonic | hMnemonic | hMnemonic
    · rw [native_jp hMnemonic]
      simp only [jumpItems, hConditional, hFirst]
    · rw [native_jr hMnemonic]
      simp only [relativeItems, hConditional, hFirst]
    · rw [native_call hMnemonic]
      simp only [callItems, hConditional, hFirst]
  cases hError.symm.trans hItems

-- --------
-- Programs
-- --------

/-- The second operand is there and counts. In a jump or call the first one is a condition, and if it holds the
code goes where the second one says; an accumulator operation takes the second one for its source. -/
structure Keeps (t : SymbolTable) (base : Value) (i : Instr) (start : Value) (code : List UInt8) : Prop where
  present : i.second.mode ≠ .none
  target  : IsJump i.mnemonic → ∃ cc target list, view i.first = .condition cc ∧
    Aims t base i.mnemonic (view i.second) target ∧ jumps start.word code = some list ∧
    ∀ flags, Jump.leads (Condition.holds flags) (.address (behind start code)) list =
      if cc.holds flags then target else .address (behind start code)
  source  : ∀ op, i.mnemonic = .alu op → aluOperands i = (view i.first, view i.second)

theorem keeps_of_condition {t : SymbolTable} {base start : Value} {code : List UInt8} {cc : Condition}
    (hFits : i.Fits shape) (hJump : IsJump i.mnemonic) (hFirst : view i.first = .condition cc)
    (hFinish : Encoder.finish family site i a = .ok () e)
    (hPlaced : Encoder.Placed t base a e start code) : Keeps t base i start code := by
  have hPresent := present_of_condition hJump hFirst hFinish
  obtain ⟨target, list, hAims, hJumps, hLeads⟩ := leads_of_conditional hFinish hPlaced
    (conditional_of_condition hFirst hPresent) (condition_of_view hFits.first hFirst) hJump
  refine ⟨hPresent, fun _ => ⟨cc, target, list, hFirst, hAims, hJumps, hLeads⟩, fun op hMnemonic => ?_⟩
  exact absurd hMnemonic (hJump.ne_alu op)

theorem keeps_alu_iff {t : SymbolTable} {base start : Value} {code : List UInt8} {op : Alu}
    (hMnemonic : i.mnemonic = .alu op) : Keeps t base i start code ↔ i.second.mode ≠ .none := by
  constructor
  · exact Keeps.present
  · intro hPresent
    refine ⟨hPresent, fun hJump => absurd hMnemonic (hJump.ne_alu op), fun _ _ => ?_⟩
    have hView : view i.second ≠ .absent := fun h => hPresent (view_eq_absent_iff.mp h)
    unfold aluOperands
    split
    · next h => exact absurd h hView
    · rfl

/-- The place behind the comma that follows the first operand, if one does. -/
def behindComma? (w : Pending Mnemonic Feature) : Option Cursor :=
  match family.resolve (w.scope family) w.state.machine
      ⟨(entry w.mnemonic).first, (entry w.mnemonic).immediate, w.implied⟩ w.state.cursor with
  | .done _ mid => (mid.eat? (.mark .comma)).map Prod.snd
  | _ => none

/-- Behind a comma, a second operand that may be left out is left out where nothing stands. -/
theorem second_mode_eq_none_iff {w : Pending Mnemonic Feature} {first second : Operand Mode} {c c' : Cursor}
    (hOptional : IsOptional w.mnemonic) (hOperands : w.operands family = .ok (first, second, c'))
    (hComma : behindComma? w = some c) : second.mode = .none ↔ c.atOperandEnd = true := by
  obtain ⟨mid, hFirst, hSlots⟩ := Encoder.slots_of_resolveOperands hOperands
  have hEaten : (mid.eat? (.mark .comma)).map Prod.snd = some c := by
    unfold behindComma? at hComma
    change family.resolve (w.scope family) w.state.machine
      ⟨(entry w.mnemonic).first, (entry w.mnemonic).immediate, w.implied⟩ w.state.cursor = _ at hFirst
    rwa [hFirst] at hComma
  rcases hSlots with ⟨hNone, -⟩ | ⟨allowed, -, ⟨hNoComma, -⟩ | ⟨comma, mid', hSome, hSecond⟩⟩
  · obtain ⟨allowed, hAllowed, -⟩ := hOptional
    cases hAllowed.symm.trans hNone
  · rw [hNoComma] at hEaten
    cases hEaten
  · rw [hSome] at hEaten
    cases hEaten
    obtain ⟨hGrammar, -⟩ := Operand.grammar_of_resolve (by nofun) hSecond
    change grammar (w.scope family) w.state.machine _ mid' = _ at hGrammar
    exact mode_eq_none_iff _ hGrammar

/-- **A second operand that may be left out is kept or ignored.** The mnemonics are those of jumps, calls and
accumulator operations. In every program that assembles and links, what stands behind the comma counts in a
jump or call if the first operand is a condition, and in an accumulator operation if it is not empty. Where it
does not count, the statement is encoded as if it ended in front of the comma. -/
theorem second_operand_is_kept_or_ignored {machine : Machine Feature} {policy : Policy} {source : String}
    {p : Program} {base : Value} {blocks : List Block} {s : Assembly Feature} {w : Pending Mnemonic Feature}
    (hAssembled : (family.assemble machine policy source).result = .ok p)
    (hLinked : p.linkSections base = .ok blocks)
    (hs : s ∈ family.states machine policy source) (hw : Assembly.pending? family s = some w) :
    (IsOptional w.mnemonic ↔ IsJump w.mnemonic ∨ ∃ op, w.mnemonic = .alu op) ∧
    ∃ i start code, family.Emits p blocks s w i start code ∧
      ∀ c, behindComma? w = some c →
        (IsJump w.mnemonic →
          (Keeps p.symbols base i start code ↔ ∃ cc, view i.first = .condition cc)) ∧
        (∀ op, w.mnemonic = .alu op →
          (Keeps p.symbols base i start code ↔ c.atOperandEnd = false)) ∧
        (IsOptional w.mnemonic → ¬ Keeps p.symbols base i start code → ∀ span,
          Encoder.finish family (w.site policy) (alone i span) w.encoder =
            Encoder.finish family (w.site policy) i w.encoder) := by
  refine ⟨isOptional_iff _, ?_⟩
  obtain ⟨i, start, code, e, hEmits, hFinish, hPlaced⟩ :=
    Family.emitted_instruction hAssembled hLinked hs hw
  obtain ⟨c', hOperands, -⟩ := hEmits.operands
  obtain ⟨hFits, -⟩ := Family.HasShape.z80.fits_of_resolveOperands hOperands
  have hMnemonic : i.mnemonic = w.mnemonic := hEmits.mnemonic
  refine ⟨i, start, code, hEmits, fun c hComma => ?_⟩
  have hJump (h : IsJump w.mnemonic) :
      Keeps p.symbols base i start code ↔ ∃ cc, view i.first = .condition cc := by
    rw [← hMnemonic] at h
    constructor
    · intro hKeeps
      obtain ⟨cc, target, list, hView, -⟩ := hKeeps.target h
      exact ⟨cc, hView⟩
    · rintro ⟨cc, hView⟩
      exact keeps_of_condition ⟨hFits.first, hFits.second⟩ h hView hFinish hPlaced
  have hAlu {op : Alu} (h : w.mnemonic = .alu op) :
      Keeps p.symbols base i start code ↔ i.second.mode ≠ .none :=
    keeps_alu_iff (hMnemonic.trans h)
  refine ⟨hJump, ?_, ?_⟩
  · intro op h
    rw [hAlu h, Ne, second_mode_eq_none_iff ((isOptional_iff _).mpr (.inr ⟨op, h⟩)) hOperands hComma,
      Bool.not_eq_true]
  · intro hOptional hNot span
    rcases (isOptional_iff _).mp hOptional with h | ⟨op, h⟩
    · have hNone : ∀ cc, view i.first ≠ .condition cc := fun cc hView => hNot ((hJump h).mpr ⟨cc, hView⟩)
      rw [finish_alone_jump (hMnemonic ▸ h) hNone hFinish]
    · have hNone : i.second.mode = .none := Decidable.not_not.mp fun h' => hNot ((hAlu h).mpr h')
      rw [finish_alone_alu (hMnemonic.trans h) hNone hFinish]

set_option maxRecDepth 10000 in
/-- A jump on a condition keeps its target, and a subtraction with nothing behind the comma does without. -/
theorem second_operand_is_kept_or_ignored_jp_sub :
    (∃ p blocks s w i start code,
      (family.assemble { features := {.z80} } {} "jp nz,$5678\n").result = .ok p ∧
      p.linkSections 0x1000 = .ok blocks ∧
      s ∈ family.states { features := {.z80} } {} "jp nz,$5678\n" ∧
      Assembly.pending? family s = some w ∧ w.mnemonic = .jp ∧
      family.Emits p blocks s w i start code ∧ Keeps p.symbols 0x1000 i start code) ∧
    ∃ p blocks s w i start code,
      (family.assemble { features := {.z80} } {} "sub b,\n").result = .ok p ∧
      p.linkSections 0x1000 = .ok blocks ∧
      s ∈ family.states { features := {.z80} } {} "sub b,\n" ∧
      Assembly.pending? family s = some w ∧ w.mnemonic = .alu .sub ∧
      family.Emits p blocks s w i start code ∧ ¬ Keeps p.symbols 0x1000 i start code ∧
      ∀ span, Encoder.finish family (w.site {}) (alone i span) w.encoder =
        Encoder.finish family (w.site {}) i w.encoder := by
  refine ⟨?_, ?_⟩
  · have hLinks : ((family.assemble { features := {.z80} } {} "jp nz,$5678\n").result.toOption.any
        fun p => (p.linkSections 0x1000).toOption.isSome) = true := by decide +kernel
    have hStates : (family.states { features := {.z80} } {} "jp nz,$5678\n").any (fun s =>
        (Assembly.pending? family s).any fun w => decide (w.mnemonic = .jp) &&
          (behindComma? w).isSome && (w.operands family).toOption.any fun found =>
            decide (view found.1 = .condition .nz)) = true := by
      decide +kernel
    obtain ⟨p, blocks, s, w, hAssembled, hLinked, hs, hw, hCheck⟩ :=
      Family.exists_pending_of_check hLinks hStates
    simp only [Bool.and_eq_true, decide_eq_true_eq, Option.any_eq_true, Option.isSome_iff_exists] at hCheck
    obtain ⟨⟨hMnemonic, c, hComma⟩, found, hFound, hFirst⟩ := hCheck
    obtain ⟨-, i, start, code, hEmits, hBehind⟩ :=
      second_operand_is_kept_or_ignored hAssembled hLinked hs hw
    obtain ⟨c', hOperands, -⟩ := hEmits.operands
    obtain rfl := Except.ok.inj ((Action.ok_of_toOption hFound).symm.trans hOperands)
    exact ⟨p, blocks, s, w, i, start, code, hAssembled, hLinked, hs, hw, hMnemonic, hEmits,
      ((hBehind c hComma).1 (.inl hMnemonic)).mpr ⟨_, hFirst⟩⟩
  · have hLinks : ((family.assemble { features := {.z80} } {} "sub b,\n").result.toOption.any
        fun p => (p.linkSections 0x1000).toOption.isSome) = true := by decide +kernel
    have hStates : (family.states { features := {.z80} } {} "sub b,\n").any (fun s =>
        (Assembly.pending? family s).any fun w => decide (w.mnemonic = .alu .sub) &&
          (behindComma? w).any fun c => c.atOperandEnd) = true := by
      decide +kernel
    obtain ⟨p, blocks, s, w, hAssembled, hLinked, hs, hw, hCheck⟩ :=
      Family.exists_pending_of_check hLinks hStates
    simp only [Bool.and_eq_true, decide_eq_true_eq, Option.any_eq_true] at hCheck
    obtain ⟨hMnemonic, c, hComma, hEnd⟩ := hCheck
    obtain ⟨hOptional, i, start, code, hEmits, hBehind⟩ :=
      second_operand_is_kept_or_ignored hAssembled hLinked hs hw
    obtain ⟨-, hAlu, hAlone⟩ := hBehind c hComma
    have hNot : ¬ Keeps p.symbols 0x1000 i start code := by
      rw [hAlu .sub hMnemonic, hEnd]
      decide
    exact ⟨p, blocks, s, w, i, start, code, hAssembled, hLinked, hs, hw, hMnemonic, hEmits, hNot,
      hAlone (hOptional.mpr (.inr ⟨.sub, hMnemonic⟩)) hNot⟩

/-- The text is accepted as a statement of `m` with the operands `first` and, behind a comma, `second`, and links
to `bytes`. -/
structure Accepts (source : String) (m : Mnemonic) (first second : View) (bytes : List UInt8) : Prop where
  links    : ∃ p blocks, (family.assemble { features := {.z80} } {} source).result = .ok p ∧
    p.linkSections 0x1000 = .ok blocks ∧ blocks.map Block.bytes = [bytes]
  operands : ∃ s ∈ family.states { features := {.z80} } {} source, ∃ w,
    Assembly.pending? family s = some w ∧ w.mnemonic = m ∧ (∃ c, behindComma? w = some c) ∧
    ∃ o o' c, w.operands family = .ok (o, o', c) ∧ view o = first ∧ view o' = second

/-- What is computed from a source text shows that it is accepted so. -/
theorem accepts_of_check {source : String} {m : Mnemonic} {first second : View} {bytes : List UInt8}
    (hLinks : ((family.assemble { features := {.z80} } {} source).result.toOption.any fun p =>
      (p.linkSections 0x1000).toOption.map (·.map Block.bytes) == some [bytes]) = true)
    (hStates : ((family.states { features := {.z80} } {} source).any fun s =>
      (Assembly.pending? family s).any fun w => decide (w.mnemonic = m) && (behindComma? w).isSome &&
        (w.operands family).toOption.any fun found =>
          decide (view found.1 = first ∧ view found.2.1 = second)) = true) :
    Accepts source m first second bytes := by
  constructor
  · obtain ⟨p, hp, hBytes⟩ := (Option.any_eq_true _ _).mp hLinks
    obtain ⟨blocks, hBlocks, hMap⟩ := Option.map_eq_some_iff.mp (beq_iff_eq.mp hBytes)
    exact ⟨p, blocks, Action.ok_of_toOption hp, Action.ok_of_toOption hBlocks, hMap⟩
  · obtain ⟨s, hs, hCheck⟩ := List.any_eq_true.mp hStates
    simp only [Bool.and_eq_true, decide_eq_true_eq, Option.any_eq_true, Option.isSome_iff_exists] at hCheck
    obtain ⟨w, hw, ⟨hMnemonic, hComma⟩, found, hFound, hFirst, hSecond⟩ := hCheck
    exact ⟨s, hs, w, hw, hMnemonic, hComma, found.1, found.2.1, found.2.2,
      Action.ok_of_toOption hFound, hFirst, hSecond⟩

set_option maxRecDepth 10000 in
/-- JP with two targets goes to the first one, and nothing needs to stand behind the comma of CALL and ADD. -/
theorem ignored_second_operands_link :
    Accepts "jp $1234,$5678\n" .jp (.address (.const 0x1234 ⟨3, 5⟩)) (.address (.const 0x5678 ⟨9, 5⟩))
      [0xc3, 0x34, 0x12] ∧
    Accepts "call $1234,\n" .call (.address (.const 0x1234 ⟨5, 5⟩)) .absent [0xcd, 0x34, 0x12] ∧
    Accepts "add a,\n" (.alu .add) (.register .a) .absent [0x87] := by
  refine ⟨accepts_of_check ?_ ?_, accepts_of_check ?_ ?_, accepts_of_check ?_ ?_⟩
  all_goals decide +kernel

end Z80

end CrossAsm
