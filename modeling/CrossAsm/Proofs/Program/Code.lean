import CrossAsm.Proofs.Transfer
import CrossAsm.Proofs.Word

/-!
# CrossAsm — the code of an instruction

What an instruction is in a program that was linked: its bytes, and the address of the first one.

* `Item.Linked` — the bytes that items become when they are linked.
* `Family.Emits` — an instruction with its address and its bytes.
* `Family.emitted_instruction` — every instruction of a program has them, and the bytes are what became of the
  items that were written for it.
* `Family.fills_instruction` — when the linker gets through them.
-/

namespace CrossAsm

-- --------
-- Items
-- --------

/-- The bytes that items become: each value has one, which its width has room for. -/
inductive Item.Linked (t : SymbolTable) (base : Value) : List Item → List UInt8 → Prop
  | nil : Linked t base [] []
  | bytes {data items out} (rest : Linked t base items out) :
    Linked t base (.bytes data :: items) (data ++ out)
  | value {e w v items out} (hValue : t.evaluate base e = .ok v) (hFits : w.fits v = true)
      (rest : Linked t base items out) : Linked t base (.value e w :: items) (w.encode v ++ out)

variable {t : SymbolTable} {base : Value} {out : List UInt8}

theorem Item.Linked.length_eq {items : List Item} (h : Item.Linked t base items out) :
    out.length = Item.total items := by
  induction h with
  | nil => rfl
  | bytes _ ih => rw [List.length_append, ih]; rfl
  | value _ _ _ ih => rw [List.length_append, Width.length_encode, ih]; rfl

/-- Items without a value are what they are written as. -/
theorem Item.Linked.of_bytes (data : List (List UInt8)) (h : Item.Linked t base (data.map .bytes) out) :
    out = data.flatten := by
  induction data generalizing out with
  | nil =>
    cases h with
    | nil => rfl
  | cons bytes data ih =>
    cases h with
    | bytes rest => rw [ih rest, List.flatten_cons]

section Values

variable {items : List Item} {e : Expr}

theorem Item.Linked.of_opcode {opcode : UInt8} (h : Item.Linked t base (.bytes [opcode] :: items) out) :
    ∃ rest, out = opcode :: rest ∧ Item.Linked t base items rest := by
  cases h with
  | bytes rest => exact ⟨_, rfl, rest⟩

/-- An address behind an opcode. -/
theorem Item.Linked.of_word (h : Item.Linked t base (.value e .word :: items) out) :
    ∃ v low high rest, t.evaluate base e = .ok v ∧ joined low high = v.word ∧
      out = low :: high :: rest ∧ Item.Linked t base items rest := by
  cases h with
  | value hValue _ rest =>
    obtain ⟨low, high, hEncode, hWord⟩ := Width.exists_encode_word _
    exact ⟨_, low, high, _, hValue, hWord, by rw [hEncode]; rfl, rest⟩

/-- A displacement behind an opcode. -/
theorem Item.Linked.of_signedByte (h : Item.Linked t base (.value e .signedByte :: items) out) :
    ∃ v d rest, t.evaluate base e = .ok v ∧ extended d = v.word ∧ out = d :: rest ∧
      Item.Linked t base items rest := by
  cases h with
  | value hValue hFits rest =>
    obtain ⟨d, hEncode, hWord⟩ := Width.exists_encode_signedByte hFits
    exact ⟨_, d, _, hValue, hWord, by rw [hEncode]; rfl, rest⟩

/-- A distance behind an opcode leads to the value of its target. -/
theorem Item.Linked.of_distance {counter : Expr} {start n : Value}
    (h : Item.Linked t base (.value (e.relativeTo counter n) .signedByte :: items) out)
    (hCounter : t.evaluate base counter = .ok start) :
    ∃ v d rest, t.evaluate base e = .ok v ∧ start.word + n.word + extended d = v.word ∧ out = d :: rest ∧
      Item.Linked t base items rest := by
  obtain ⟨distance, d, rest, hDistance, hWord, rfl, hRest⟩ := h.of_signedByte
  have hTarget : t.evaluate base (e.relativeTo counter n) =
      (t.evaluate base e).map (· - (start + n)) := Expr.evaluate_relativeTo hCounter e n
  rw [hTarget] at hDistance
  obtain ⟨v, hValue, rfl⟩ := Action.map_eq_ok.mp hDistance
  refine ⟨v, d, rest, hValue, ?_, rfl, hRest⟩
  rw [hWord, Value.word_sub, Value.word_add, BitVec.add_comm, BitVec.sub_add_cancel]

end Values

namespace Section

variable {s final : Section}

/-- The field in which items were written holds what they become. -/
theorem linked_writeAll {items : List Item} (hWell : s.WellFormed)
    (hKnown : ∀ e w v, Item.value e w ∈ items → e.value? = some v → w.fits v = true)
    (hMore : (s.writeAll items).Extends final) (hFinal : final.WellFormed)
    (hLink : final.link t base = .ok out) :
    Item.Linked t base items (field out s.size (Item.total items)) := by
  induction items generalizing s with
  | nil =>
    have hNone : field out s.size (Item.total []) = [] := List.take_zero
    rw [hNone]
    exact .nil
  | cons item items ih =>
    have hHere : (s.write item).Extends final := (Extends.writeAll _ items).trans hMore
    have hKnown' : ∀ e w v, Item.value e w ∈ items → e.value? = some v → w.fits v = true :=
      fun e w v hMem => hKnown e w v (List.mem_cons_of_mem _ hMem)
    have hRest := ih (s := s.write item) (hWell.writeAll [item]) hKnown' hMore
    rw [size_write] at hRest
    rw [Item.total, field_add]
    cases item with
    | bytes data =>
      have hData := field_link_emit hWell hHere hFinal hLink
      rw [Item.size, hData]
      exact .bytes hRest
    | value e w =>
      obtain ⟨v, hValue, hLate, hField⟩ := field_link_emitExpr hWell hHere hFinal hLink
      have hFits : w.fits v = true := by
        cases hNow : e.value? with
        | none => exact hLate hNow
        | some known =>
          have hEvaluate : t.evaluate base e = .ok known := Expr.evaluate_of_value? hNow
          obtain rfl := Except.ok.inj (hEvaluate.symm.trans hValue)
          exact hKnown e w known List.mem_cons_self hNow
      rw [Item.size, hField]
      exact .value hValue hFits hRest

end Section

namespace Encoder

theorem Writes.append {items more : List Item} {a b c : Encoder} (h : Writes items a b)
    (h' : Writes more b c) : Writes (items ++ more) a c := by
  refine ⟨?_, ?_⟩
  · rw [h'.output, h.output, Section.writeAll_append]
  · intro e w v hMem
    rcases List.mem_append.mp hMem with hMem | hMem
    · exact h.fits e w v hMem
    · exact h'.fits e w v hMem

variable {Mnemonic Mode Feature : Type} {F : Family Mnemonic Mode Feature}

/-- Parts that are native instructions, and whose encoding is the same wherever they stand. -/
inductive Fixed (F : Family Mnemonic Mode Feature) : List (Part Mnemonic Mode) → List Item → Prop
  | nil : Fixed F [] []
  | native {i parts items more} (h : ∀ setting, F.native setting i = .ok items)
      (rest : Fixed F parts more) : Fixed F (.native i :: parts) (items ++ more)

theorem Fixed.writes [Flag Mode] [Flag Feature] {site : Site Feature} {label : String} {s s' : Encoder}
    {parts : List (Part Mnemonic Mode)} {items : List Item} (h : Fixed F parts items)
    (hRun : parts.forM (encodePart F site label) s = .ok () s') : Writes items s s' := by
  induction h generalizing s with
  | nil =>
    obtain ⟨-, rfl⟩ := Action.pure_eq_ok.mp hRun
    exact ⟨rfl, by simp⟩
  | native hNative _ ih =>
    obtain ⟨s₁, hPart, hRest⟩ := Action.forM_cons_eq_ok.mp hRun
    obtain ⟨items, hItems, hWrites⟩ := writes_encodeNative hPart
    obtain rfl := Except.ok.inj (hItems.symm.trans (hNative _))
    exact hWrites.append (ih hRest)

/-- What was written between two states of the encoder is the bytes `code` at the address `start`, once the
program with the symbols `t` is linked. -/
structure Placed (t : SymbolTable) (base : Value) (s s' : Encoder) (start : Value) (code : List UInt8) :
    Prop where
  symbols : s'.symbols.symbols <+: t.symbols
  origin  : s'.output.origin = s.output.origin
  start   : 0 < code.length → start = s.output.origin.getD base + Value.ofNat s.output.size
  linked  : ∀ items, Writes items s s' → Item.Linked t base items code

/-- The code of an instruction that is expanded to native ones with encodings of their own. -/
theorem Placed.linked_fixed [Flag Mode] [Flag Feature] {site : Site Feature}
    {i : Instruction Mnemonic Mode} {x : Expansion Mnemonic Mode} {t : SymbolTable} {base start : Value}
    {s s' : Encoder} {code : List UInt8} {items : List Item} (h : Placed t base s s' start code)
    (hFinish : finish F site i s = .ok () s') (hExpansion : F.expansion? (setting site s) i = some x)
    (hFixed : Fixed F x.parts items) : Item.Linked t base items code := by
  obtain ⟨label, s₁, hOutput, -, hParts⟩ := parts_of_finish hFinish hExpansion
  have hWrites := hFixed.writes hParts
  exact h.linked _ ⟨hOutput ▸ hWrites.output, hWrites.fits⟩

/-- The counter of an instruction is its address. -/
theorem Placed.evaluate_counter {t : SymbolTable} {base start : Value} {s s' : Encoder} {code : List UInt8}
    (h : Placed t base s s' start code) (hPos : 0 < code.length) (span : Span) :
    t.evaluate base (s.output.positionExpr span) = .ok start := by
  rw [h.start hPos]
  exact s.output.evaluate_positionExpr span base _

end Encoder

-- --------
-- Instructions
-- --------

namespace Family

variable {Mnemonic Mode Feature : Type} [DecidableEq Mode] [Flag Mode]

/-- The statement at which the run is in state `s` is the instruction `i`. In the linked program its bytes are
`code`, and the first of them is at the address `start`. -/
structure Emits (F : Family Mnemonic Mode Feature) (p : Program) (blocks : List Block)
    (s : Assembly Feature) (w : Pending Mnemonic Feature) (i : Instruction Mnemonic Mode) (start : Value)
    (code : List UInt8) : Prop where
  mnemonic : i.mnemonic = w.mnemonic
  operands : ∃ c, w.operands F = .ok (i.first, i.second, c) ∧ c.atStatementEnd = true
  listed   : ∃ entry block, p.listing[s.listing.length]? = some entry ∧
    blocks[entry.region]? = some block ∧ start = block.address + Value.ofNat entry.offset ∧
    code = Section.field block.bytes entry.offset entry.length ∧ code.length = entry.length

variable [Flag Feature] {F : Family Mnemonic Mode Feature} {machine : Machine Feature} {policy : Policy}
  {source : String} {p : Program} {s : Assembly Feature} {w : Pending Mnemonic Feature}

/-- The symbols that an instruction leaves keep their meaning. -/
theorem symbols_of_finish {first second : Operand Mode} {c : Cursor} {e : Encoder}
    (hAssembled : (F.assemble machine policy source).result = .ok p)
    (hs : s ∈ F.states machine policy source) (hw : Assembly.pending? F s = some w)
    (hOperands : w.operands F = .ok (first, second, c))
    (hFinish : Encoder.finish F (w.site policy) ⟨w.mnemonic, first, second⟩ w.encoder = .ok () e) :
    e.symbols.symbols <+: p.symbols.symbols := by
  obtain ⟨before, after, hStates⟩ := List.append_of_mem hs
  obtain ⟨s', n, final, hRun, -, hFinal, rfl⟩ :=
    accepted_run hAssembled hStates (Assembly.not_isAt_newline_of_pending? hw)
  obtain ⟨first', second', c', e', hOperands', -, hFinish', -, -, hSymbols⟩ :=
    Assembly.finish_of_wholeStatement hRun hw
  obtain ⟨rfl, rfl, rfl⟩ : first' = first ∧ second' = second ∧ c' = c := by
    simpa using hOperands'.symm.trans hOperands
  obtain ⟨-, rfl⟩ := EStateM.Result.ok.inj (hFinish'.symm.trans hFinish)
  have hMore := (Assembly.continues_steps (F.job policy source)
    (Assembly.statement (F.job policy source) s) n).symbols
  rw [hFinal, Assembly.statement_of_ok hRun, hSymbols] at hMore
  exact hMore

/-- **The code of an instruction.** Every instruction of a program that assembles and links has its bytes in
the listing. They are what became of the items that were written, at the address where they were written. -/
theorem emitted_instruction {base : Value} {blocks : List Block}
    (hAssembled : (F.assemble machine policy source).result = .ok p)
    (hLinked : p.linkSections base = .ok blocks)
    (hs : s ∈ F.states machine policy source) (hw : Assembly.pending? F s = some w) :
    ∃ i start code e, F.Emits p blocks s w i start code ∧
      Encoder.finish F (w.site policy) i w.encoder = .ok () e ∧
      Encoder.Placed p.symbols base w.encoder e start code := by
  obtain ⟨first, second, c, e, r, hOperands, hEnd, hFinish, hWell, hr, hExtends, hFinal⟩ :=
    accepted_instruction hAssembled hs hw
  obtain ⟨entry, hEntry, hRegion, hOffset, hStop, hOrigin⟩ :=
    located_instruction hAssembled hs hw hOperands hFinish hr
  obtain ⟨block, hBlock, hLink⟩ := Program.block_of_linkSections hLinked hr
  have hGrows : w.encoder.Grows e := (Encoder.keeps_finish F _ _).of_ok hFinish
  have hCode (items : List Item) (hWrites : Encoder.Writes items w.encoder e) :
      Item.Linked p.symbols base items (Section.field block.bytes entry.offset entry.length) := by
    have hTotal : entry.length = Item.total items := by
      rw [hWrites.output, Section.size_writeAll] at hStop
      omega
    rw [hOffset, hTotal]
    rw [hWrites.output] at hExtends
    exact Section.linked_writeAll hWell hWrites.fits hExtends hFinal hLink
  have hLength : (Section.field block.bytes entry.offset entry.length).length = entry.length := by
    have hEmitted : e.output.size ≤ r.output.size := hExtends.data.length_le
    have hBytes : block.bytes.length = r.output.size := hFinal.length_link hLink
    rw [Section.field, List.length_take, List.length_drop]
    omega
  refine ⟨⟨w.mnemonic, first, second⟩, block.address + Value.ofNat entry.offset, _, e,
    ⟨rfl, ⟨c, hOperands, hEnd⟩, entry, block, hEntry, hRegion ▸ hBlock, rfl, rfl, hLength⟩, hFinish,
    ⟨symbols_of_finish hAssembled hs hw hOperands hFinish, hGrows.origin, ?_, hCode⟩⟩
  intro hPos
  rw [hLength] at hPos
  rw [Program.address_of_linkSections hLinked hr hBlock, Region.load, hOrigin hPos, hOffset]

/-- The linker fills in the fields of an instruction if it has values for them that fit. -/
theorem fills_instruction {first second : Operand Mode} {c : Cursor} {e : Encoder} {items : List Item}
    (hAssembled : (F.assemble machine policy source).result = .ok p)
    (hs : s ∈ F.states machine policy source) (hw : Assembly.pending? F s = some w)
    (hOperands : w.operands F = .ok (first, second, c))
    (hFinish : Encoder.finish F (w.site policy) ⟨w.mnemonic, first, second⟩ w.encoder = .ok () e)
    (hWrites : Encoder.Writes items w.encoder e) :
    ∃ entry r, p.listing[s.listing.length]? = some entry ∧ p.regions[entry.region]? = some r ∧
      ∀ base, r.output.FillsBetween p.symbols base entry.offset (entry.offset + entry.length) ↔
        ∀ x width, Item.value x width ∈ items →
          ∃ v, p.symbols.evaluate base x = .ok v ∧ width.fits v = true := by
  obtain ⟨first', second', c', e', r, hOperands', -, hFinish', hWell, hr, hMore, -⟩ :=
    accepted_instruction hAssembled hs hw
  obtain ⟨rfl, rfl, rfl⟩ : first' = first ∧ second' = second ∧ c' = c := by
    simpa using hOperands'.symm.trans hOperands
  obtain ⟨-, rfl⟩ := EStateM.Result.ok.inj (hFinish'.symm.trans hFinish)
  obtain ⟨entry, hEntry, hRegion, hOffset, hStop, -⟩ :=
    located_instruction hAssembled hs hw hOperands hFinish hr
  refine ⟨entry, r, hEntry, hRegion ▸ hr, fun base => ?_⟩
  rw [hWrites.output] at hMore hStop
  rw [hStop, hOffset]
  exact Section.fillsBetween_iff hWell hWrites.fits hMore

/-- What is computed from a source text shows that its program links and that it has such an instruction. -/
theorem exists_pending_of_check {base : Value} {check : Pending Mnemonic Feature → Bool}
    (hLinks : ((F.assemble machine policy source).result.toOption.any fun p =>
      (p.linkSections base).toOption.isSome) = true)
    (hStates : ((F.states machine policy source).any fun s => (Assembly.pending? F s).any check) = true) :
    ∃ p blocks s w, (F.assemble machine policy source).result = .ok p ∧
      p.linkSections base = .ok blocks ∧ s ∈ F.states machine policy source ∧
      Assembly.pending? F s = some w ∧ check w = true := by
  obtain ⟨p, hp, hSome⟩ := (Option.any_eq_true _ _).mp hLinks
  obtain ⟨blocks, hBlocks⟩ := Option.isSome_iff_exists.mp hSome
  obtain ⟨s, hs, hAny⟩ := List.any_eq_true.mp hStates
  obtain ⟨w, hw, hCheck⟩ := (Option.any_eq_true _ _).mp hAny
  exact ⟨p, blocks, s, w, Action.ok_of_toOption hp, Action.ok_of_toOption hBlocks, hs, hw, hCheck⟩

end Family

end CrossAsm
