import CrossAsm.Proofs.Assembly.Origin
import CrossAsm.Proofs.Mos65.Transfer
import CrossAsm.Proofs.Program.Link
import CrossAsm.Proofs.Z80.Transfer

/-!
# CrossAsm — relative transfers

A relative transfer is written while the addresses of its program are still open. It leads to its target all
the same, since the region that it stands in is not moved once something is in it.

* `Family.IsTransfer` — the relative transfers of both families.
* `Family.located_instruction` — where an instruction is found in a program.
-/

namespace CrossAsm

namespace Family

-- --------
-- Transfers of both families
-- --------

/-- The instruction is a relative transfer of its family, on a CPU with the given features. -/
inductive IsTransfer : {Mnemonic Mode Feature : Type} → [DecidableEq Mode] → [Flag Mode] →
    [Flag Feature] → Family Mnemonic Mode Feature → FlagSet Feature → Instruction Mnemonic Mode →
    Transfer → Prop
  | mos65 {features i t} (h : Mos65.transfer? features i = some t) : IsTransfer Mos65.family features i t
  | z80 {features i t} (h : Z80.transfer? i = some t) : IsTransfer Z80.family features i t

/-- The operands at the cursor name the target of a transfer. -/
inductive Names : {Mnemonic Mode Feature : Type} → Family Mnemonic Mode Feature → Scope → Mnemonic →
    Option Nat → Cursor → Expr → Prop
  | mos65 {scope m implied c target} (h : Mos65.Aimed scope m implied c target) :
      Names Mos65.family scope m implied c target
  | z80 {scope m implied c target} (h : Z80.Aimed scope c target) :
      Names Z80.family scope m implied c target

variable {Mnemonic Mode Feature : Type} [DecidableEq Mode] [Flag Mode] [Flag Feature]
  {F : Family Mnemonic Mode Feature}

/-- A transfer that was written has one of its encodings, and the target that its text names. -/
theorem IsTransfer.encodes {features : FlagSet Feature} {w : Pending Mnemonic Feature} {policy : Policy}
    {first second : Operand Mode} {c : Cursor} {t : Transfer} {e : Encoder}
    (h : F.IsTransfer features ⟨w.mnemonic, first, second⟩ t)
    (hFeatures : w.state.machine.features = features)
    (hOperands : w.operands F = .ok (first, second, c))
    (hFinish : Encoder.finish F (w.site policy) ⟨w.mnemonic, first, second⟩ w.encoder = .ok () e) :
    F.Names (w.scope F) w.mnemonic w.implied w.state.cursor t.target ∧
      ∃ form ∈ t.forms, ∃ items,
        form.Encodes t.target (w.encoder.output.positionExpr w.place) items ∧
        Encoder.Writes items w.encoder e := by
  cases h with
  | mos65 h =>
    subst hFeatures
    exact ⟨.mos65 (Mos65.aimed_of_operands h hOperands), Mos65.writes_transfer h hFinish⟩
  | z80 h =>
    obtain ⟨hMode, hForm⟩ := Z80.writes_transfer h hFinish
    exact ⟨.z80 (Z80.aimed_of_operands h hOperands hMode), hForm⟩

-- --------
-- Where instructions are
-- --------

variable {machine : Machine Feature} {policy : Policy} {source : String} {p : Program}
  {s : Assembly Feature} {w : Pending Mnemonic Feature}

/-- **Where an instruction is**: the listing has the place of its output. If there is any, the region is loaded
where it was when the instruction was written. -/
theorem located_instruction {first second : Operand Mode} {c : Cursor} {e : Encoder} {r : Region}
    (hAssembled : (F.assemble machine policy source).result = .ok p)
    (hs : s ∈ F.states machine policy source) (hw : Assembly.pending? F s = some w)
    (hOperands : w.operands F = .ok (first, second, c))
    (hFinish : Encoder.finish F (w.site policy) ⟨w.mnemonic, first, second⟩ w.encoder = .ok () e)
    (hr : p.regions[s.regionIndex]? = some r) :
    ∃ entry, p.listing[s.listing.length]? = some entry ∧ entry.region = s.regionIndex ∧
      entry.offset = w.encoder.output.size ∧ entry.offset + entry.length = e.output.size ∧
      (0 < entry.length → r.output.origin = w.encoder.output.origin) := by
  obtain ⟨before, after, hStates⟩ := List.append_of_mem hs
  obtain ⟨s', n, final, hRun, -, hFinal, rfl⟩ :=
    accepted_run hAssembled hStates (Assembly.not_isAt_newline_of_pending? hw)
  obtain ⟨first', second', c', e', hOperands', -, hFinish', hEarlier, hOutput, -⟩ :=
    Assembly.finish_of_wholeStatement hRun hw
  -- The statement did what the encoder does with the same operands.
  obtain ⟨rfl, rfl, rfl⟩ : first' = first ∧ second' = second ∧ c' = c := by
    simpa using hOperands'.symm.trans hOperands
  obtain ⟨-, rfl⟩ := EStateM.Result.ok.inj (hFinish'.symm.trans hFinish)
  obtain ⟨symbols, c'', hState⟩ := Assembly.relabels_of_pending? hw
  have hStart : w.encoder.output = s.current.output := by
    show w.state.current.output = _
    rw [hState]
  have hIndex : s'.regionIndex = s.regionIndex := by
    unfold Assembly.regionIndex
    rw [hEarlier, hState]
  have hGrows : w.encoder.Grows e' := (Encoder.keeps_finish F _ _).of_ok hFinish
  have hSize : w.encoder.output.size ≤ e'.output.size := hGrows.output.data.length_le
  have hOffset : (Assembly.entry (F.job policy source) s s').offset = w.encoder.output.size := by
    unfold Assembly.entry
    rw [if_pos hIndex, hStart]
  have hLength : (Assembly.entry (F.job policy source) s s').length =
      e'.output.size - w.encoder.output.size := by
    rw [← hOffset, ← hOutput]
    rfl
  subst hFinal
  refine ⟨_, Assembly.listing_steps hRun n, hIndex, hOffset, by omega, fun hPos => ?_⟩
  have hCurrent : (Assembly.statement (F.job policy source) s).regions[s'.regionIndex]? =
      some s'.current := by
    rw [Assembly.statement_of_ok hRun]
    exact Assembly.getElem?_regions_regionIndex s'
  have hStays : ∀ later ∈ Assembly.visits (F.job policy source) n
      (Assembly.statement (F.job policy source) s), later.movesRegion s'.regionIndex = false :=
    Assembly.stays_of_size_pos hCurrent (by rw [hOutput]; omega)
  obtain ⟨r', hr', hOrigin⟩ := Assembly.origin_steps hRun hStays
  rw [hIndex] at hr'
  obtain rfl := Option.some.inj (hr'.symm.trans hr)
  rw [hOrigin, hOutput]
  exact hGrows.origin

/-- **Relative transfers reach their targets.** In the linked bytes of every program, the displacement of
each relative transfer, counted from behind the instruction, leads to the value of the target that its
operands name. -/
theorem relative_transfer_reaches_target {base : Value} {blocks : List Block}
    (hAssembled : (F.assemble machine policy source).result = .ok p)
    (hLinked : p.linkSections base = .ok blocks)
    (hs : s ∈ F.states machine policy source) (hw : Assembly.pending? F s = some w) :
    ∃ first second c, w.operands F = .ok (first, second, c) ∧
      ∀ t, F.IsTransfer w.state.machine.features ⟨w.mnemonic, first, second⟩ t →
        F.Names (w.scope F) w.mnemonic w.implied w.state.cursor t.target ∧
        ∃ entry block form v,
          p.listing[s.listing.length]? = some entry ∧ blocks[entry.region]? = some block ∧
          form ∈ t.forms ∧ entry.length = form.size ∧
          (∀ opcode, form.opcode? = some opcode →
            Section.field block.bytes entry.offset 1 = [opcode]) ∧
          p.symbols.evaluate base t.target = .ok v ∧
          block.address + Value.ofNat entry.offset + Value.ofNat entry.length +
            Int64.ofInt (form.width.decodeSigned
              (Section.field block.bytes (entry.offset + form.lead) form.width.size)) = v := by
  obtain ⟨first, second, c, e, r, hOperands, -, hFinish, hWell, hr, hExtends, hFinal⟩ :=
    accepted_instruction hAssembled hs hw
  refine ⟨first, second, c, hOperands, fun t hTransfer => ?_⟩
  obtain ⟨hNames, form, hForm, items, hEncodes, hWrites⟩ :=
    hTransfer.encodes rfl hOperands hFinish
  obtain ⟨entry, hEntry, hRegion, hOffset, hStop, hOrigin⟩ :=
    located_instruction hAssembled hs hw hOperands hFinish hr
  obtain ⟨block, hBlock, hLink⟩ := Program.block_of_linkSections hLinked hr
  obtain ⟨v, hValue, hReaches⟩ := hEncodes.reaches_target hWrites hWell hExtends hFinal hLink
  have hLength : entry.length = form.size := by
    have hSize := hEncodes.size_output hWrites
    omega
  have hAddress : block.address = w.encoder.output.origin.getD base := by
    have hPos : 0 < entry.length := by
      have hWidth := form.width.size_pos
      rw [hLength, RelativeForm.size]
      omega
    rw [Program.address_of_linkSections hLinked hr hBlock, Region.load, hOrigin hPos]
  refine ⟨hNames, entry, block, form, v, hEntry, hRegion ▸ hBlock, hForm, hLength, ?_, hValue, ?_⟩
  · intro opcode hOpcode
    rw [hOffset]
    exact hEncodes.opcode_link hWrites hWell hExtends hFinal hLink hOpcode
  · rw [hAddress, hOffset, hLength]
    exact hReaches

set_option maxRecDepth 10000 in
/-- A forward branch over one byte in relocatable code. It has two bytes in front of its displacement. -/
theorem relative_transfer_reaches_target_bbr :
    ∃ p blocks s w entry block v,
      (Mos65.family.assemble { features := {.base, .cmos, .rockwell} } {}
        "nop\nbbr 3,$10,far\nnop\nfar: rts\n").result = .ok p ∧
      p.linkSections 0x1000 = .ok blocks ∧
      s ∈ Mos65.family.states { features := {.base, .cmos, .rockwell} } {}
        "nop\nbbr 3,$10,far\nnop\nfar: rts\n" ∧
      Assembly.pending? Mos65.family s = some w ∧ w.mnemonic = .bit .bbr ∧
      p.listing[s.listing.length]? = some entry ∧ blocks[entry.region]? = some block ∧
      entry.length = 3 ∧ p.symbols.evaluate 0x1000 (.symbol "far" ⟨14, 3⟩) = .ok v ∧
      block.address + Value.ofNat entry.offset + 3 + Int64.ofInt (Width.signedByte.decodeSigned
        (Section.field block.bytes (entry.offset + 2) 1)) = v := by
  have hLinks : ((Mos65.family.assemble { features := {.base, .cmos, .rockwell} } {}
      "nop\nbbr 3,$10,far\nnop\nfar: rts\n").result.toOption.any
      fun p => (p.linkSections 0x1000).toOption.isSome) = true := by decide +kernel
  have hStates : (Mos65.family.states { features := {.base, .cmos, .rockwell} } {}
      "nop\nbbr 3,$10,far\nnop\nfar: rts\n").any (fun s =>
        (Assembly.pending? Mos65.family s).any fun w => decide (w.mnemonic = .bit .bbr) &&
          (w.operands Mos65.family).toOption.any fun found =>
            decide (found.1.value 2 = .symbol "far" ⟨14, 3⟩)) = true := by
    decide +kernel
  obtain ⟨p, hp, hSome⟩ := (Option.any_eq_true _ _).mp hLinks
  obtain ⟨blocks, hBlocks⟩ := Option.isSome_iff_exists.mp hSome
  obtain ⟨s, hs, hCheck⟩ := List.any_eq_true.mp hStates
  simp only [Bool.and_eq_true, decide_eq_true_eq, Option.any_eq_true] at hCheck
  obtain ⟨w, hw, hMnemonic, found, hFound, hTarget⟩ := hCheck
  have hAssembled := Action.ok_of_toOption hp
  have hLinked := Action.ok_of_toOption hBlocks
  obtain ⟨first, second, c, hOperands, hReaches⟩ :=
    relative_transfer_reaches_target hAssembled hLinked hs hw
  obtain rfl := Except.ok.inj ((Action.ok_of_toOption hFound).symm.trans hOperands)
  have hTransfer : Mos65.transfer? w.state.machine.features ⟨w.mnemonic, first, second⟩ =
      some ⟨first.value 2, [Mos65.bitForm]⟩ := by
    rw [hMnemonic]
    rfl
  obtain ⟨-, entry, block, form, v, hEntry, hBlock, hForm, hLength, -, hValue, hLeads⟩ :=
    hReaches _ (.mos65 hTransfer)
  obtain rfl := List.mem_singleton.mp hForm
  rw [hLength] at hLeads
  exact ⟨p, blocks, s, w, entry, block, v, hAssembled, hLinked, hs, hw, hMnemonic, hEntry, hBlock,
    hLength, hTarget ▸ hValue, hLeads⟩

end Family

end CrossAsm
