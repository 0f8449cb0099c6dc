import CrossAsm.Proofs.Mos65.Control
import CrossAsm.Proofs.Z80.Control

/-!
# CrossAsm — conditional jumps by a detour

Both families have jumps on a condition that their CPUs lack. The code is a jump on the inverse condition over
a jump that is always taken. The made-up label between them is defined behind the code and has no address yet
when it is used, but in the linked program it is the address of the next byte.
-/

namespace CrossAsm

/-- **Conditional jumps by a detour.** In every program that assembles and links, the bytes of such a jump are
a jump on the inverse condition to the address behind them, and a jump to the operand. So control goes to the
operand if the condition holds, and on if it does not. -/
theorem conditional_jumps_take_detour :
    (∀ {machine policy source p base blocks s w},
      (Mos65.family.assemble machine policy source).result = .ok p → p.linkSections base = .ok blocks →
      s ∈ Mos65.family.states machine policy source → Assembly.pending? Mos65.family s = some w →
      ∃ i start code, Mos65.family.Emits p blocks s w i start code ∧
        ∀ c, w.mnemonic = .jump c → Mos65.Feature.ce02 ∉ w.state.machine.features →
          ∃ v list, p.symbols.evaluate base (i.first.value 0) = .ok v ∧
            Mos65.jumps start.word code = some list ∧
            list = [⟨some c.inverse, behind start code⟩, ⟨none, v.word⟩] ∧
            ∀ flags, Jump.leads (Mos65.Condition.holds flags) (behind start code) list =
              if c.holds flags then v.word else behind start code) ∧
    (∀ {machine policy source p base blocks s w},
      (Z80.family.assemble machine policy source).result = .ok p → p.linkSections base = .ok blocks →
      s ∈ Z80.family.states machine policy source → Assembly.pending? Z80.family s = some w →
      ∃ i start code, Z80.family.Emits p blocks s w i start code ∧
        ∀ cc, w.mnemonic = .jp → Z80.view i.first = .condition cc →
          (Z80.view i.second = .register .m ∨ ∃ x d, Z80.view i.second = .indexed x d) →
          ∃ target list, Z80.Aims p.symbols base .jp (Z80.view i.second) target ∧
            Z80.jumps start.word code = some list ∧
            list = [⟨some cc.inverse, .address (behind start code)⟩, ⟨none, target⟩] ∧
            ∀ flags, Jump.leads (Z80.Condition.holds flags)
                (.address (behind start code)) list =
              if cc.holds flags then target else .address (behind start code)) := by
  refine ⟨?_, ?_⟩
  · intro machine policy source p base blocks s w hAssembled hLinked hs hw
    obtain ⟨i, start, code, e, hEmits, hFinish, hPlaced⟩ :=
      Family.emitted_instruction hAssembled hLinked hs hw
    refine ⟨i, start, code, hEmits, fun c hJump hFeatures => ?_⟩
    have hMnemonic : i.mnemonic = .jump c := hEmits.mnemonic.trans hJump
    obtain ⟨v, hValue, hJumps⟩ := Mos65.jumps_of_longJump hMnemonic hFeatures hFinish hPlaced
    exact ⟨v, _, hValue, hJumps, rfl, fun flags => Jump.leads_detour (c.holds_inverse flags) _ _⟩
  · intro machine policy source p base blocks s w hAssembled hLinked hs hw
    obtain ⟨i, start, code, e, hEmits, hFinish, hPlaced⟩ :=
      Family.emitted_instruction hAssembled hLinked hs hw
    obtain ⟨c, hOperands, -⟩ := hEmits.operands
    obtain ⟨hFits, -⟩ := Family.HasShape.z80.fits_of_resolveOperands hOperands
    refine ⟨i, start, code, hEmits, fun cc hJump hFirst hSecond => ?_⟩
    have hMnemonic : i.mnemonic = .jp := hEmits.mnemonic.trans hJump
    have hPresent : i.second.mode ≠ .none := by
      intro hNone
      rw [Z80.view_eq_absent_iff.mpr hNone] at hSecond
      obtain hSecond | ⟨x, d, hSecond⟩ := hSecond <;> cases hSecond
    have hCode := Z80.condition_of_view hFits.first hFirst
    obtain ⟨target, hAims, hJumps⟩ := Z80.jumps_of_detour hFinish hPlaced
      (Z80.conditional_of_condition hFirst hPresent) hCode hMnemonic hSecond
    exact ⟨target, _, hAims, hJumps, rfl, fun flags => Jump.leads_detour (Z80.holds_inverse hCode flags) _ _⟩

set_option maxRecDepth 10000 in
/-- A jump to a label further on in relocatable code, and a jump to IY on a condition that JR does not have. -/
theorem conditional_jumps_take_detour_ne_po :
    (∃ p blocks s w i start code v,
      (Mos65.family.assemble { features := {.base} } {} "jne far\nnop\nfar: rts\n").result = .ok p ∧
      p.linkSections 0x1000 = .ok blocks ∧
      s ∈ Mos65.family.states { features := {.base} } {} "jne far\nnop\nfar: rts\n" ∧
      Assembly.pending? Mos65.family s = some w ∧ w.mnemonic = .jump .ne ∧
      Mos65.family.Emits p blocks s w i start code ∧
      p.symbols.evaluate 0x1000 (i.first.value 0) = .ok v ∧
      Mos65.jumps start.word code = some [⟨some .eq, behind start code⟩, ⟨none, v.word⟩]) ∧
    ∃ p blocks s w i start code,
      (Z80.family.assemble { features := {.z80} } {} "jp po,(iy)\n").result = .ok p ∧
      p.linkSections 0x1000 = .ok blocks ∧
      s ∈ Z80.family.states { features := {.z80} } {} "jp po,(iy)\n" ∧
      Assembly.pending? Z80.family s = some w ∧ w.mnemonic = .jp ∧
      Z80.family.Emits p blocks s w i start code ∧
      Z80.jumps start.word code = some [⟨some .pe, .address (behind start code)⟩, ⟨none, .index .iy⟩] := by
  refine ⟨?_, ?_⟩
  · have hLinks : ((Mos65.family.assemble { features := {.base} } {}
        "jne far\nnop\nfar: rts\n").result.toOption.any
        fun p => (p.linkSections 0x1000).toOption.isSome) = true := by decide +kernel
    have hStates : (Mos65.family.states { features := {.base} } {} "jne far\nnop\nfar: rts\n").any (fun s =>
        (Assembly.pending? Mos65.family s).any fun w => decide (w.mnemonic = .jump .ne ∧
          Mos65.Feature.ce02 ∉ w.state.machine.features)) = true := by
      decide +kernel
    obtain ⟨p, blocks, s, w, hAssembled, hLinked, hs, hw, hCheck⟩ :=
      Family.exists_pending_of_check hLinks hStates
    obtain ⟨hMnemonic, hFeatures⟩ := of_decide_eq_true hCheck
    obtain ⟨i, start, code, hEmits, hJumps⟩ :=
      conditional_jumps_take_detour.1 hAssembled hLinked hs hw
    obtain ⟨v, list, hValue, hList, rfl, -⟩ := hJumps .ne hMnemonic hFeatures
    exact ⟨p, blocks, s, w, i, start, code, v, hAssembled, hLinked, hs, hw, hMnemonic, hEmits, hValue, hList⟩
  · have hLinks : ((Z80.family.assemble { features := {.z80} } {} "jp po,(iy)\n").result.toOption.any
        fun p => (p.linkSections 0x1000).toOption.isSome) = true := by decide +kernel
    have hStates : (Z80.family.states { features := {.z80} } {} "jp po,(iy)\n").any (fun s =>
        (Assembly.pending? Z80.family s).any fun w => decide (w.mnemonic = .jp) &&
          (w.operands Z80.family).toOption.any fun found =>
            decide (Z80.view found.1 = .condition .po ∧
              Z80.view found.2.1 = .indexed .iy (.const 0 ⟨7, 2⟩))) = true := by
      decide +kernel
    obtain ⟨p, blocks, s, w, hAssembled, hLinked, hs, hw, hCheck⟩ :=
      Family.exists_pending_of_check hLinks hStates
    simp only [Bool.and_eq_true, decide_eq_true_eq, Option.any_eq_true] at hCheck
    obtain ⟨hMnemonic, found, hFound, hFirst, hSecond⟩ := hCheck
    obtain ⟨i, start, code, hEmits, hJumps⟩ :=
      conditional_jumps_take_detour.2 hAssembled hLinked hs hw
    obtain ⟨c, hOperands, -⟩ := hEmits.operands
    obtain rfl := Except.ok.inj ((Action.ok_of_toOption hFound).symm.trans hOperands)
    obtain ⟨target, list, hAims, hList, rfl, -⟩ := hJumps .po hMnemonic hFirst (.inr ⟨_, _, hSecond⟩)
    rw [hSecond] at hAims
    cases hAims
    exact ⟨p, blocks, s, w, i, start, code, hAssembled, hLinked, hs, hw, hMnemonic, hEmits, hList⟩

end CrossAsm
