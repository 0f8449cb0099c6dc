import CrossAsm.Mos65
import CrossAsm.Proofs.Assembly.Instruction
import CrossAsm.Proofs.Expr.Evaluation
import CrossAsm.Proofs.Program.Link
import CrossAsm.Z80

/-!
# CrossAsm — range checks of late-bound operands

The bit number of a bit instruction and the immediate of LDQ have to lie in a range, which is checked
while the operand is constant. What is not constant is merged into an opcode or cut into bytes, and
linking sees only the result. This module says what becomes of the check:

* On the 65xx a bit number is cut to three bits and the immediate of LDQ to four bytes, so nothing is
  left of the check: every value is accepted.
* On the Z80 a bit number is shifted into the opcode, and what does not fit into a byte then is refused.
  The bit numbers 8 to 31 and some negative ones are accepted, and select another instruction.

`late_bound_range_check` states it for all of them, with what stands in the linked bytes.
-/

namespace CrossAsm

-- --------
-- Checked operands
-- --------

/-- An operand whose range is checked while it is constant, and what happens to its value when it is
not. -/
structure CheckedOperand where
  expr : Expr
  /-- The lowest and the highest constant. -/
  low : Int
  high : Int
  /-- The values that linking accepts. -/
  Accepts : Value → Prop
  /-- The bytes that depend on it, as offsets from the start of the instruction. -/
  fields : List Nat
  /-- What stands there for a value. -/
  bytes : Value → List UInt8

namespace CheckedOperand

/-- The check that a constant has to pass. -/
def InRange (o : CheckedOperand) (v : Value) : Prop := o.low ≤ v.toInt ∧ v.toInt ≤ o.high

instance (o : CheckedOperand) (v : Value) : Decidable (o.InRange v) :=
  inferInstanceAs (Decidable (_ ∧ _))

/-- The bit number of a 65xx bit instruction: bits 4 to 6 of the opcode are the number modulo eight. -/
def mosBit (op : Mos65.BitOp) (e : Expr) : CheckedOperand where
  expr := e
  low := 0
  high := 7
  Accepts _ := True
  fields := [0]
  bytes v := [UInt8.ofNat (op.opcode.toNat + 16 * (v.toInt % 8).toNat)]

/-- The immediate of LDQ: the operands of four load instructions are its four low bytes. -/
def quadImmediate (e : Expr) : CheckedOperand where
  expr := e
  low := -0x80000000
  high := 0xffffffff
  Accepts _ := True
  fields := [1, 3, 5, 7]
  bytes v := Width.doubleWord.encode v

/-- The bit number of a Z80 bit instruction whose opcode is `opcode` for bit 0 and stands at `field`. It
is shifted by three, which loses its three highest bits; the result has to be a byte, signed or
unsigned. -/
def z80Bit (opcode : UInt8) (field : Nat) (e : Expr) : CheckedOperand where
  expr := e
  low := 0
  high := 7
  Accepts v :=
    -(if opcode < 0x80 then 16 else 32) ≤ v.toInt.bmod (2 ^ 61) ∧ v.toInt.bmod (2 ^ 61) ≤ 31
  fields := [field]
  bytes v := [opcode ||| UInt8.ofNat (8 * (v.toInt % 32)).toNat]

end CheckedOperand

/-- The opcode of a Z80 bit instruction for bit 0 of what its second operand selects, and its offset. -/
def Z80.bitOpcode (op : Z80.BitOp) : Z80.View → UInt8 × Nat
  | .register r => (op.opcode ||| r.code, 1)
  | _ => (op.opcode ||| Z80.Reg.m.code, 3)

/-- The instruction `x` of the program `p` has the checked operand `o`, which was not constant when its
statement was assembled. -/
inductive LateBound (p : Program) : (region start : Nat) → (o : CheckedOperand) → Prop
  /-- RMB, SMB, BBR and BBS. -/
  | mosBit {x op} (hHas : Mos65.family.HasInstruction p x) (hOp : x.instruction.mnemonic = .bit op)
      (hLate : (x.instruction.first.value 0).value? = none) :
      LateBound p x.region x.start (.mosBit op (x.instruction.first.value 0))
  /-- LDQ with an immediate. -/
  | quadImmediate {x} (hHas : Mos65.family.HasInstruction p x)
      (hOp : x.instruction.mnemonic = .quadAlu .lda)
      (hMode : x.instruction.first.mode = .immediate)
      (hLate : (x.instruction.first.value 0).value? = none) :
      LateBound p x.region x.start (.quadImmediate (x.instruction.first.value 0))
  /-- BIT, RES and SET. -/
  | z80Bit {x op} (hHas : Z80.family.HasInstruction p x) (hOp : x.instruction.mnemonic = .bit op)
      (hLate : (x.instruction.first.value 0).value? = none) :
      LateBound p x.region x.start
        (.z80Bit (Z80.bitOpcode op (Z80.view x.instruction.second)).1
          (Z80.bitOpcode op (Z80.view x.instruction.second)).2 (x.instruction.first.value 0))

-- --------
-- From fields to the whole program
-- --------

/-- A byte of the output that is computed from an operand when the program is linked. -/
structure DerivedByte where
  offset : Nat
  expr : Expr
  /-- Its value, given the value of the operand. -/
  value : Value → Value

/-- The bytes that depend on a checked operand are patches of the region. -/
structure CheckedOperand.Lowered (o : CheckedOperand) (r : Region) (start : Nat)
    (derived : List DerivedByte) : Prop where
  nonempty : derived ≠ []
  offsets  : derived.map DerivedByte.offset = o.fields
  patch    : ∀ d ∈ derived, ⟨start + d.offset, .byte, d.expr⟩ ∈ r.output.patches
  evaluate : ∀ d ∈ derived, ∀ base lookup,
               d.expr.evaluate base lookup = (o.expr.evaluate base lookup).map d.value
  accepts  : ∀ v, (∀ d ∈ derived, Width.byte.fits (d.value v) = true) ↔ o.Accepts v
  bytes    : ∀ v, derived.map (fun d => Width.byte.encode (d.value v)) = (o.bytes v).map ([·])

namespace CheckedOperand.Lowered

variable {o : CheckedOperand} {p : Program} {region start : Nat} {r : Region}
  {derived : List DerivedByte} {base : Value}

/-- An operand that a single byte depends on. -/
theorem single {d : DerivedByte} (hField : o.fields = [d.offset])
    (hPatch : ⟨start + d.offset, .byte, d.expr⟩ ∈ r.output.patches)
    (hEvaluate : ∀ base lookup,
      d.expr.evaluate base lookup = (o.expr.evaluate base lookup).map d.value)
    (hAccepts : ∀ v, Width.byte.fits (d.value v) = true ↔ o.Accepts v)
    (hBytes : ∀ v, ∃ byte, o.bytes v = [byte] ∧ Width.byte.encode (d.value v) = [byte]) :
    o.Lowered r start [d] where
  nonempty := List.cons_ne_nil d []
  offsets := hField.symm
  patch := by
    intro d' hd
    obtain rfl := List.mem_singleton.mp hd
    exact hPatch
  evaluate := by
    intro d' hd
    obtain rfl := List.mem_singleton.mp hd
    exact hEvaluate
  accepts := by
    intro v
    rw [← hAccepts v]
    simp
  bytes := by
    intro v
    obtain ⟨byte, hByte, hEncode⟩ := hBytes v
    rw [hByte, List.map_singleton, hEncode]
    rfl

/-- A derived byte can be filled in exactly if its value is known and fits. -/
theorem fill_iff (h : o.Lowered r start derived) {d : DerivedByte} (hd : d ∈ derived)
    (t : SymbolTable) :
    (∃ bytes, Section.fill t base ⟨start + d.offset, .byte, d.expr⟩ = .ok bytes) ↔
      ∃ v, t.evaluate base o.expr = .ok v ∧ Width.byte.fits (d.value v) = true := by
  have hEval : t.evaluate base d.expr = (t.evaluate base o.expr).map d.value :=
    h.evaluate d hd base _
  constructor
  · rintro ⟨bytes, hFill⟩
    obtain ⟨x, hx, hFits, -⟩ := Section.fill_eq_ok_iff.mp hFill
    rw [hEval] at hx
    obtain ⟨v, hv, rfl⟩ := Action.map_eq_ok.mp hx
    exact ⟨v, hv, hFits⟩
  · rintro ⟨v, hv, hFits⟩
    refine ⟨_, Section.fill_eq_ok_iff.mpr ⟨d.value v, ?_, hFits, rfl⟩⟩
    rw [hEval, hv]
    rfl

/-- Linking accepts exactly the values that fit all derived bytes. -/
theorem exists_link_iff (h : o.Lowered r start derived) (hr : p.regions[region]? = some r)
    (hWell : r.output.WellFormed) :
    (∃ blocks, p.linkSections base = .ok blocks) ↔
      (∃ v, p.symbols.evaluate base o.expr = .ok v ∧ o.Accepts v) ∧
        p.FillsOutside base region (o.fields.map (start + ·)) := by
  let patches : List Patch := derived.map fun d => ⟨start + d.offset, .byte, d.expr⟩
  have hPatches : ∀ q ∈ patches, q ∈ r.output.patches := by
    intro q hq
    obtain ⟨d, hd, rfl⟩ := List.mem_map.mp hq
    exact h.patch d hd
  have hOffsets : patches.map Patch.offset = o.fields.map (start + ·) := by
    rw [← h.offsets, List.map_map, List.map_map]
    rfl
  have hFill : (∀ q ∈ patches, ∃ bytes, Section.fill p.symbols base q = .ok bytes) ↔
      ∃ v, p.symbols.evaluate base o.expr = .ok v ∧ o.Accepts v := by
    constructor
    · intro hAll
      have hEach (d : DerivedByte) (hd : d ∈ derived) :=
        (h.fill_iff hd p.symbols).mp (hAll _ (List.mem_map_of_mem hd))
      obtain ⟨first, hFirst⟩ := List.exists_mem_of_ne_nil _ h.nonempty
      obtain ⟨v, hv, -⟩ := hEach first hFirst
      refine ⟨v, hv, (h.accepts v).mp ?_⟩
      intro d hd
      obtain ⟨v', hv', hFits⟩ := hEach d hd
      rw [hv] at hv'
      obtain rfl := Except.ok.inj hv'
      exact hFits
    · rintro ⟨v, hv, hAccepts⟩ q hq
      obtain ⟨d, hd, rfl⟩ := List.mem_map.mp hq
      exact (h.fill_iff hd p.symbols).mpr ⟨v, hv, (h.accepts v).mpr hAccepts d hd⟩
  rw [Program.exists_linkSections_iff_fields hr hWell hPatches, hFill, hOffsets]

/-- The linked bytes are those of the value. -/
theorem bytes_of_link (h : o.Lowered r start derived) (hr : p.regions[region]? = some r)
    (hWell : r.output.WellFormed) {blocks : List Block} (hLink : p.linkSections base = .ok blocks)
    {v : Value} (hv : p.symbols.evaluate base o.expr = .ok v) :
    ∃ b, blocks[region]? = some b ∧
      o.fields.map (fun k => b.bytes[start + k]?) = (o.bytes v).map some := by
  obtain ⟨b, hb, hRegion⟩ := Program.block_of_linkSections hLink hr
  refine ⟨b, hb, ?_⟩
  have hByte (d : DerivedByte) (hd : d ∈ derived) :
      b.bytes[start + d.offset]? = (Width.byte.encode (d.value v)).head? := by
    obtain ⟨x, hx, -, hField⟩ := hWell.field_link hRegion (h.patch d hd)
    have hEval : p.symbols.evaluate base d.expr = (p.symbols.evaluate base o.expr).map d.value :=
      h.evaluate d hd base _
    rw [hEval, hv] at hx
    obtain rfl := Except.ok.inj hx
    change Section.field b.bytes (start + d.offset) 1 = Width.byte.encode (d.value v) at hField
    rw [← hField, Section.field, List.head?_take, if_neg Nat.one_ne_zero, List.head?_drop]
  have hBytes := congrArg (List.map List.head?) (h.bytes v)
  rw [List.map_map, List.map_map] at hBytes
  rw [← h.offsets, List.map_map]
  refine (List.map_congr_left hByte).trans ?_
  exact hBytes

end CheckedOperand.Lowered

-- --------
-- 65xx bit instructions
-- --------

theorem Expr.checkRange_of_late {e : Expr} (hLate : e.value? = none) (low high : Value) :
    e.checkRange low high = .ok e := by
  simp only [Expr.checkRange, hLate]

/-- Merged into an opcode, any bit number fits a byte and counts modulo eight. -/
theorem mosBit_value (op : Mos65.BitOp) (v : Value) :
    let merged := Value.ofNat op.opcode.toNat ||| Expr.shifted (v &&& Expr.lowMask 3) 4
    Width.byte.fits merged = true ∧
      Width.byte.encode merged = [UInt8.ofNat (op.opcode.toNat + 16 * (v.toInt % 8).toNat)] := by
  have hCut := Expr.toInt_and_lowMask v (show 3 < 63 by decide)
  have hBit : v &&& Expr.lowMask 3 = Value.ofNat (v.toInt % 8).toNat := by
    apply Int64.toInt_inj.mp
    rw [hCut, Value.ofNat, Int64.toInt_ofNat_of_lt (by omega)]
    omega
  have hEach : ∀ k < 8, ∀ op : Mos65.BitOp,
      let merged := Value.ofNat op.opcode.toNat ||| Expr.shifted (Value.ofNat k) 4
      Width.byte.fits merged = true ∧
        Width.byte.encode merged = [UInt8.ofNat (op.opcode.toNat + 16 * k)] := by
    intro k hk op
    cases op <;> revert k <;> decide
  rw [hBit]
  exact hEach (v.toInt % 8).toNat (by omega) op

theorem lowered_mosBit {p : Program} {x : Placed Mos65.Mnemonic Mos65.Mode}
    {op : Mos65.BitOp} (hHas : Mos65.family.HasInstruction p x) (hOp : x.instruction.mnemonic = .bit op)
    (hLate : (x.instruction.first.value 0).value? = none) :
    ∃ r derived, p.regions[x.region]? = some r ∧ r.output.WellFormed ∧
      (CheckedOperand.mosBit op (x.instruction.first.value 0)).Lowered r x.start derived := by
  obtain ⟨site, a, e, r, hFinish, hStart, hr, hExtends, hWell⟩ := hHas.finish
  have hOutput := Encoder.writes_finish hFinish
  have hNone : Mos65.family.expansion? (Encoder.setting site a) x.instruction = none := by
    show Mos65.expansion? _ x.instruction = none
    simp only [Mos65.expansion?, hOp]
  rw [hNone] at hOutput
  obtain ⟨items, hNative, hItems⟩ := hOutput
  change Mos65.native _ x.instruction = .ok items at hNative
  simp only [Mos65.native, hOp, Mos65.bitItems, Expr.checkRange_of_late hLate, Except.ok.injEq]
    at hNative
  let opcode := (Expr.const (Value.ofNat op.opcode.toNat) (x.instruction.first.value 0).span).mkOr
    (((x.instruction.first.value 0).mask 3).shift 4)
  have hFirst : ∃ rest, items = .value opcode .byte :: rest := by
    rw [← hNative]
    split
    · exact ⟨_, rfl⟩
    · exact ⟨_, rfl⟩
  obtain ⟨rest, rfl⟩ := hFirst
  rw [hItems.output] at hExtends
  rw [← hStart]
  have hOpcode : opcode.value? = none := Expr.value?_const_mkOr_eq_none
    (Expr.value?_shift_eq_none (Expr.value?_mask_eq_none hLate 3) 4) _ _
  let value (v : Value) := Value.ofNat op.opcode.toNat ||| Expr.shifted (v &&& Expr.lowMask 3) 4
  refine ⟨r, [⟨0, opcode, value⟩], hr, hWell, .single rfl ?_ ?_ ?_ ?_⟩
  · exact Section.mem_patches_of_writeAll (k := 0) hExtends rfl hOpcode
  · intro base lookup
    rw [Expr.evaluate_const_mkOr, Expr.evaluate_shift, Expr.evaluate_mask]
    show _ = ((x.instruction.first.value 0).evaluate base lookup).map _
    cases (x.instruction.first.value 0).evaluate base lookup <;> rfl
  · intro v
    exact ⟨fun _ => trivial, fun _ => (mosBit_value op v).1⟩
  · intro v
    exact ⟨_, rfl, (mosBit_value op v).2⟩

-- --------
-- LDQ with an immediate
-- --------

/-- The items of LDQ with an immediate whose value is not known: four loads, of A, X, Y and Z. -/
def quadItems (value : Expr) : List Item :=
  ([0xa9, 0xa2, 0xa0, 0xa3].zip (Mos65.quadBytes value)).flatMap fun (opcode, byte) =>
    [.bytes [opcode], .value byte .byte]

/-- One of the loads that LDQ consists of. -/
theorem items_of_load {st : Setting Mos65.Feature} {load : Mos65.Special} {opcode : UInt8}
    {byte : Expr} {span : Span} {second : Operand Mos65.Mode} {items : List Item}
    (hForm : ∃ requires, (load.forms.find? (·.mode = .immediate)) = some ⟨.immediate, opcode, requires⟩)
    (h : Mos65.family.native st ⟨.special load, .withValue .immediate byte span, second⟩ = .ok items) :
    items = [.bytes [opcode], .value byte .byte] := by
  obtain ⟨requires, hForm⟩ := hForm
  have hFound : load.forms.find? (·.mode = (Operand.withValue Mos65.Mode.immediate byte span).mode) =
      some ⟨.immediate, opcode, requires⟩ := hForm
  change Mos65.specialItems st _ load = _ at h
  unfold Mos65.specialItems at h
  dsimp only at h
  rw [hFound] at h
  dsimp only at h
  split at h
  · exact (Except.ok.inj h).symm
  · cases h

theorem output_loadQuad {site : Site Mos65.Feature} {i : Mos65.Instr} {a e : Encoder}
    (hFinish : Encoder.finish Mos65.family site i a = .ok () e) (hOp : i.mnemonic = .quadAlu .lda)
    (hMode : i.first.mode = .immediate) (hLate : (i.first.value 0).value? = none) :
    e.output = a.output.writeAll (quadItems (i.first.value 0)) := by
  have hOutput := Encoder.writes_finish hFinish
  have hExpansion : Mos65.family.expansion? (Encoder.setting site a) i =
      some (Mos65.loadQuad i.first) := by
    show Mos65.expansion? _ i = _
    simp only [Mos65.expansion?, hOp, hMode, if_true]
  rw [hExpansion] at hOutput
  obtain ⟨label, a₁, hStart, hParts⟩ := hOutput
  -- No byte is known, so none is copied from A.
  have hByte (amount : Value) : (((i.first.value 0).shift amount).mask 8).isConstant = false := by
    rw [← Expr.isSome_value?, Expr.value?_mask_eq_none (Expr.value?_shift_eq_none hLate amount)]
    rfl
  simp only [Mos65.loadQuad, Mos65.quadBytes, Mos65.quadLoads, List.map_cons, List.map_nil,
    List.zip_cons_cons, List.zip_nil_left, hByte, Bool.false_and, Bool.false_eq_true, if_false]
    at hParts
  obtain ⟨a₂, hCheck, hParts⟩ := Action.forM_cons_eq_ok.mp hParts
  obtain ⟨a₃, hA, hParts⟩ := Action.forM_cons_eq_ok.mp hParts
  obtain ⟨a₄, hX, hParts⟩ := Action.forM_cons_eq_ok.mp hParts
  obtain ⟨a₅, hY, hParts⟩ := Action.forM_cons_eq_ok.mp hParts
  obtain ⟨a₆, hZ, hDone⟩ := Action.forM_cons_eq_ok.mp hParts
  obtain ⟨-, rfl⟩ := Action.pure_eq_ok.mp hDone
  obtain ⟨none, hNone, hCheck⟩ := Encoder.output_encodePart hCheck
  obtain ⟨itemsA, hItemsA, hA⟩ := Encoder.output_encodePart hA
  obtain ⟨itemsX, hItemsX, hX⟩ := Encoder.output_encodePart hX
  obtain ⟨itemsY, hItemsY, hY⟩ := Encoder.output_encodePart hY
  obtain ⟨itemsZ, hItemsZ, hZ⟩ := Encoder.output_encodePart hZ
  obtain rfl : none = [] := hNone
  obtain rfl := Except.ok.inj hItemsA
  obtain rfl := items_of_load ⟨.base, rfl⟩ hItemsX
  obtain rfl := items_of_load ⟨.base, rfl⟩ hItemsY
  obtain rfl := items_of_load ⟨.ce02, rfl⟩ hItemsZ
  rw [hZ, hY, hX, hA, hCheck, hStart]
  rfl

/-- The four bytes that LDQ loads, as a byte of its value each. -/
theorem quadByte_value (v : Value) {n : Nat} {amount : Value}
    (h : (n, amount) ∈ ([(0, 0), (1, -8), (2, -16), (3, -24)] : List (Nat × Value))) :
    (Expr.shifted v amount &&& Expr.lowMask 8).toInt = v.toInt / 256 ^ n % 256 := by
  rw [Expr.toInt_and_lowMask _ (show 8 < 63 by decide)]
  congr 1
  simp only [List.mem_cons, Prod.mk.injEq, List.not_mem_nil, or_false] at h
  rcases h with ⟨rfl, rfl⟩ | ⟨rfl, rfl⟩ | ⟨rfl, rfl⟩ | ⟨rfl, rfl⟩
  · have hZero : Expr.shifted v 0 = v := Int64.shiftLeft_zero
    rw [hZero]
    simp
  · exact Value.toInt_shiftRight v rfl
  · exact Value.toInt_shiftRight v rfl
  · exact Value.toInt_shiftRight v rfl

theorem lowered_quadImmediate {p : Program} {x : Placed Mos65.Mnemonic Mos65.Mode}
    (hHas : Mos65.family.HasInstruction p x) (hOp : x.instruction.mnemonic = .quadAlu .lda)
    (hMode : x.instruction.first.mode = .immediate) (hLate : (x.instruction.first.value 0).value? = none) :
    ∃ r derived, p.regions[x.region]? = some r ∧ r.output.WellFormed ∧
      (CheckedOperand.quadImmediate (x.instruction.first.value 0)).Lowered r x.start derived := by
  obtain ⟨site, a, e, r, hFinish, hStart, hr, hExtends, hWell⟩ := hHas.finish
  rw [output_loadQuad hFinish hOp hMode hLate] at hExtends
  rw [← hStart]
  let places : List (Nat × Value) := [(0, 0), (1, -8), (2, -16), (3, -24)]
  let derived : List DerivedByte := places.map fun place =>
    ⟨2 * place.1 + 1, ((x.instruction.first.value 0).shift place.2).mask 8,
      fun v => Expr.shifted v place.2 &&& Expr.lowMask 8⟩
  refine ⟨r, derived, hr, hWell, ?_⟩
  constructor
  · simp [derived, places]
  · rfl
  · intro d hd
    obtain ⟨⟨n, amount⟩, hPlace, rfl⟩ := List.mem_map.mp hd
    have hNone := Expr.value?_mask_eq_none (Expr.value?_shift_eq_none hLate amount) 8
    simp only [places, List.mem_cons, Prod.mk.injEq, List.not_mem_nil, or_false] at hPlace
    rcases hPlace with ⟨rfl, rfl⟩ | ⟨rfl, rfl⟩ | ⟨rfl, rfl⟩ | ⟨rfl, rfl⟩
    · exact Section.mem_patches_of_writeAll (k := 1) hExtends rfl hNone
    · exact Section.mem_patches_of_writeAll (k := 3) hExtends rfl hNone
    · exact Section.mem_patches_of_writeAll (k := 5) hExtends rfl hNone
    · exact Section.mem_patches_of_writeAll (k := 7) hExtends rfl hNone
  · intro d hd base lookup
    obtain ⟨place, -, rfl⟩ := List.mem_map.mp hd
    rw [Expr.evaluate_mask, Expr.evaluate_shift]
    show _ = ((x.instruction.first.value 0).evaluate base lookup).map _
    cases (x.instruction.first.value 0).evaluate base lookup <;> rfl
  · intro v
    refine ⟨fun _ => trivial, fun _ d hd => ?_⟩
    obtain ⟨⟨n, amount⟩, hPlace, rfl⟩ := List.mem_map.mp hd
    rw [Width.fits_byte_iff, quadByte_value v hPlace]
    omega
  · intro v
    have hEach : derived.map (fun d => Width.byte.encode (d.value v)) =
        places.map fun place => [UInt8.ofNat (v.toInt / 256 ^ place.1 % 256).toNat] := by
      rw [List.map_map]
      apply List.map_congr_left
      rintro ⟨n, amount⟩ hPlace
      show Width.byte.encode (Expr.shifted v amount &&& Expr.lowMask 8) = _
      rw [Width.encode_byte, quadByte_value v hPlace, Int.emod_emod_of_dvd _ (Int.dvd_refl _)]
    rw [hEach]
    show _ = (Width.doubleWord.encode v).map _
    rw [Width.encode_doubleWord]
    rfl

-- --------
-- Z80 bit instructions
-- --------

theorem toNat_z80Bit (opcode : UInt8) (v : Value) {n : Nat}
    (hn : v.toUInt64.toNat * 2 ^ 3 % 2 ^ 64 = n) :
    (Value.ofNat opcode.toNat ||| Expr.shifted v 3).toUInt64.toNat =
      n / 256 * 256 + (opcode.toNat ||| n % 256) := by
  have hShifted : (Expr.shifted v 3).toUInt64.toNat = n :=
    (Value.toNat_shiftLeft v rfl).trans hn
  rw [Value.toNat_ofNat_or opcode.toNat_lt, hShifted]

/-- Shifted into an opcode, a bit number is accepted if the result is a byte. -/
theorem fits_z80Bit_iff (opcode : UInt8) (v : Value) :
    Width.byte.fits (Value.ofNat opcode.toNat ||| Expr.shifted v 3) = true ↔
      -(if opcode < 0x80 then 16 else 32) ≤ v.toInt.bmod (2 ^ 61) ∧ v.toInt.bmod (2 ^ 61) ≤ 31 := by
  obtain ⟨n, hn⟩ : ∃ n, v.toUInt64.toNat * 2 ^ 3 % 2 ^ 64 = n := ⟨_, rfl⟩
  have hMerged := toNat_z80Bit opcode v hn
  have hValue := Value.toInt_eq_toNat_sub v
  have hWhole := Value.toInt_eq_toNat_sub (Value.ofNat opcode.toNat ||| Expr.shifted v 3)
  -- The high byte of the sum is that of the shifted number; its low byte has the bits of the opcode too.
  have hSmall : opcode.toNat ||| n % 256 < 256 :=
    Nat.or_lt_two_pow (n := 8) opcode.toNat_lt (Nat.mod_lt _ (by decide))
  have hSign : 128 ≤ opcode.toNat ||| n % 256 ↔ 128 ≤ opcode.toNat ∨ 128 ≤ n % 256 :=
    Value.two_pow_le_or_iff (k := 7)
  have hLess : opcode < 0x80 ↔ opcode.toNat < 128 := Iff.rfl
  have hBmod : (n : Int) = 8 * v.toInt.bmod (2 ^ 61) ∧ 0 ≤ v.toInt.bmod (2 ^ 61) ∨
      (n : Int) = 8 * v.toInt.bmod (2 ^ 61) + 2 ^ 64 ∧ v.toInt.bmod (2 ^ 61) < 0 := by
    rw [Int.bmod_def]
    omega
  have hRange : v.toInt.bmod (2 ^ 61) < 2 ^ 60 ∧ -2 ^ 60 ≤ v.toInt.bmod (2 ^ 61) := by
    rw [Int.bmod_def]
    omega
  generalize v.toInt.bmod (2 ^ 61) = b at hBmod hRange
  generalize opcode.toNat ||| n % 256 = low at hMerged hSmall hSign
  rw [Width.fits_byte_iff]
  by_cases hHigh : opcode.toNat < 128
  · rw [if_pos (hLess.mpr hHigh)]
    omega
  · rw [if_neg fun h => hHigh (hLess.mp h)]
    omega

theorem encode_z80Bit (opcode : UInt8) (v : Value) :
    Width.byte.encode (Value.ofNat opcode.toNat ||| Expr.shifted v 3) =
      [opcode ||| UInt8.ofNat (8 * (v.toInt % 32)).toNat] := by
  obtain ⟨n, hn⟩ : ∃ n, v.toUInt64.toNat * 2 ^ 3 % 2 ^ 64 = n := ⟨_, rfl⟩
  have hMerged := toNat_z80Bit opcode v hn
  have hValue := Value.toInt_eq_toNat_sub v
  have hSmall : opcode.toNat ||| n % 256 < 256 :=
    Nat.or_lt_two_pow (n := 8) opcode.toNat_lt (Nat.mod_lt _ (by decide))
  have hLow : (8 * (v.toInt % 32)).toNat % 2 ^ 8 = n % 256 := by omega
  have hByte (x : Value) : Width.byte.encode x = [UInt8.ofNat x.toUInt64.toNat] := rfl
  rw [hByte, hMerged]
  congr 1
  apply UInt8.toNat_inj.mp
  rw [UInt8.toNat_ofNat', UInt8.toNat_or, UInt8.toNat_ofNat', hLow]
  omega

theorem lowered_z80Bit {p : Program} {x : Placed Z80.Mnemonic Z80.Mode} {op : Z80.BitOp}
    (hHas : Z80.family.HasInstruction p x) (hOp : x.instruction.mnemonic = .bit op)
    (hLate : (x.instruction.first.value 0).value? = none) :
    ∃ r derived, p.regions[x.region]? = some r ∧ r.output.WellFormed ∧
      (CheckedOperand.z80Bit (Z80.bitOpcode op (Z80.view x.instruction.second)).1
        (Z80.bitOpcode op (Z80.view x.instruction.second)).2 (x.instruction.first.value 0)).Lowered r
          x.start derived := by
  obtain ⟨site, a, e, r, hFinish, hStart, hr, hExtends, hWell⟩ := hHas.finish
  have hOutput := Encoder.writes_finish hFinish
  have hNone : Z80.family.expansion? (Encoder.setting site a) x.instruction = none := by
    show Z80.expansion? _ x.instruction = none
    simp only [Z80.expansion?, hOp]
  rw [hNone] at hOutput
  obtain ⟨items, hNative, hItems⟩ := hOutput
  change Z80.native _ x.instruction = .ok items at hNative
  simp only [Z80.native, hOp, Z80.bitItems, Expr.checkRange_of_late hLate] at hNative
  rw [hItems.output] at hExtends
  rw [← hStart]
  generalize hPlace : Z80.bitOpcode op (Z80.view x.instruction.second) = place
  let merged := (Expr.const (Value.ofNat place.1.toNat) (x.instruction.first.value 0).span).mkOr
    ((x.instruction.first.value 0).shift 3)
  have hMerged : merged.value? = none :=
    Expr.value?_const_mkOr_eq_none (Expr.value?_shift_eq_none hLate 3) _ _
  -- The opcode comes second, or behind the displacement.
  have hPatch : ⟨a.output.size + place.2, .byte, merged⟩ ∈ r.output.patches := by
    split at hNative
    · next target hView =>
      obtain rfl := Except.ok.inj hNative
      rw [hView] at hPlace
      subst hPlace
      exact Section.mem_patches_of_writeAll (k := 1) hExtends rfl hMerged
    · next index displacement hView =>
      obtain rfl := Except.ok.inj hNative
      rw [hView] at hPlace
      subst hPlace
      exact Section.mem_patches_of_writeAll (k := 2) hExtends rfl hMerged
    · cases hNative
  let value (v : Value) := Value.ofNat place.1.toNat ||| Expr.shifted v 3
  refine ⟨r, [⟨place.2, merged, value⟩], hr, hWell, .single rfl hPatch ?_ ?_ ?_⟩
  · intro base lookup
    rw [Expr.evaluate_const_mkOr, Expr.evaluate_shift]
    show _ = ((x.instruction.first.value 0).evaluate base lookup).map _
    cases (x.instruction.first.value 0).evaluate base lookup <;> rfl
  · exact fits_z80Bit_iff place.1
  · intro v
    exact ⟨_, rfl, encode_z80Bit place.1 v⟩

-- --------
-- What is left of the check
-- --------

theorem LateBound.lowered {p : Program} {region start : Nat} {o : CheckedOperand}
    (h : LateBound p region start o) :
    ∃ r derived, p.regions[region]? = some r ∧ r.output.WellFormed ∧ o.Lowered r start derived := by
  cases h with
  | mosBit hHas hOp hLate => exact lowered_mosBit hHas hOp hLate
  | quadImmediate hHas hOp hMode hLate => exact lowered_quadImmediate hHas hOp hMode hLate
  | z80Bit hHas hOp hLate => exact lowered_z80Bit hHas hOp hLate

/-- **What is left of the range check of a late-bound operand.** A program with such an operand links
exactly if linking accepts the value of the operand and can fill in every other field. The linked bytes
are then those of the value. Hence the check is made, in that the program is refused if the value lies
outside the range, exactly if no value outside is accepted or another field is in the way. -/
theorem late_bound_range_check {p : Program} {region start : Nat} {o : CheckedOperand}
    (h : LateBound p region start o) (base : Value) :
    let evaluate := p.symbols.evaluate base o.expr
    let others := p.FillsOutside base region (o.fields.map (start + ·))
    ((∃ blocks, p.linkSections base = .ok blocks) ↔
      (∃ v, evaluate = .ok v ∧ o.Accepts v) ∧ others) ∧
    (∀ blocks v, p.linkSections base = .ok blocks → evaluate = .ok v →
      ∃ b, blocks[region]? = some b ∧
        o.fields.map (fun k => b.bytes[start + k]?) = (o.bytes v).map some) ∧
    ((∀ blocks, p.linkSections base = .ok blocks → ∃ v, evaluate = .ok v ∧ o.InRange v) ↔
      (others → ∀ v, evaluate = .ok v → o.Accepts v → o.InRange v)) := by
  intro evaluate others
  obtain ⟨r, derived, hr, hWell, hLowered⟩ := h.lowered
  have hLinks : (∃ blocks, p.linkSections base = .ok blocks) ↔
      (∃ v, evaluate = .ok v ∧ o.Accepts v) ∧ others := hLowered.exists_link_iff hr hWell
  refine ⟨hLinks, fun blocks v hLink hv => hLowered.bytes_of_link hr hWell hLink hv, ?_⟩
  constructor
  · intro hCheck hOthers v hv hAccepts
    obtain ⟨blocks, hLink⟩ := hLinks.mpr ⟨⟨v, hv, hAccepts⟩, hOthers⟩
    obtain ⟨v', hv', hRange⟩ := hCheck blocks hLink
    rw [hv] at hv'
    obtain rfl := Except.ok.inj hv'
    exact hRange
  · intro hCheck blocks hLink
    obtain ⟨⟨v, hv, hAccepts⟩, hOthers⟩ := hLinks.mp ⟨blocks, hLink⟩
    exact ⟨v, hv, hCheck hOthers v hv hAccepts⟩

-- --------
-- Programs that link with an operand out of range
-- --------

/-- The program links to `bytes`, although its late-bound operand has a value outside the range. -/
structure Overlooked (p : Program) (o : CheckedOperand) (v : Value) (bytes : List UInt8) : Prop where
  late       : LateBound p 0 0 o
  evaluate   : p.symbols.evaluate 0 o.expr = .ok v
  outOfRange : ¬ o.InRange v
  links      : ∃ blocks, p.linkSections 0 = .ok blocks ∧ blocks.map Block.bytes = [bytes]

/-- What is computed from a source text shows that its program is such a one. -/
theorem overlooked_of_check {Mnemonic Mode Feature : Type} [DecidableEq Mode] [Flag Mode]
    [Flag Feature] {F : Family Mnemonic Mode Feature} {machine : Machine Feature} {source : String}
    {o : CheckedOperand} {v : Value} {bytes : List UInt8}
    (hLate : ∀ p, (F.assemble machine {} source).result = .ok p → LateBound p 0 0 o)
    (hRange : ¬ o.InRange v)
    (hCheck : ((F.assemble machine {} source).result.toOption.any fun p =>
      (p.symbols.evaluate 0 o.expr).toOption == some v &&
        (p.linkSections 0).toOption.map (·.map Block.bytes) == some [bytes]) = true) :
    ∃ p, (F.assemble machine {} source).result = .ok p ∧ Overlooked p o v bytes := by
  obtain ⟨p, hp, hFacts⟩ := (Option.any_eq_true _ _).mp hCheck
  have hResult := Action.ok_of_toOption hp
  simp only [Bool.and_eq_true, beq_iff_eq] at hFacts
  obtain ⟨blocks, hBlocks, hBytes⟩ := Option.map_eq_some_iff.mp hFacts.2
  exact ⟨p, hResult, hLate p hResult, Action.ok_of_toOption hFacts.1, hRange,
    blocks, Action.ok_of_toOption hBlocks, hBytes⟩

set_option maxRecDepth 10000 in
theorem late_bound_rmb {p : Program}
    (h : (Mos65.family.assemble { features := {.base, .cmos, .rockwell} } {}
      "rmb n,$10\nn = 9\n").result = .ok p) :
    LateBound p 0 0 (.mosBit .rmb (.symbol "n" ⟨4, 1⟩)) := by
  have hAny : (Mos65.family.instructions { features := {.base, .cmos, .rockwell} } {}
      "rmb n,$10\nn = 9\n").any (fun x => decide (x.region = 0 ∧ x.start = 0 ∧
        x.instruction.mnemonic = .bit .rmb ∧
        x.instruction.first.value 0 = .symbol "n" ⟨4, 1⟩)) = true := by decide +kernel
  obtain ⟨x, hHas, hx⟩ := Family.HasInstruction.exists_of_any h hAny
  obtain ⟨hRegion, hStart, hOp, hValue⟩ := of_decide_eq_true hx
  have hLate := LateBound.mosBit hHas hOp (by rw [hValue]; rfl)
  rwa [hRegion, hStart, hValue] at hLate

set_option maxRecDepth 10000 in
theorem late_bound_range_check_rmb :
    ∃ p, (Mos65.family.assemble { features := {.base, .cmos, .rockwell} } {}
        "rmb n,$10\nn = 9\n").result = .ok p ∧
      LateBound p 0 0 (.mosBit .rmb (.symbol "n" ⟨4, 1⟩)) ∧ p.FillsOutside 0 0 [0] ∧
      ∃ blocks b, p.linkSections 0 = .ok blocks ∧ blocks[0]? = some b ∧
        b.bytes[0]? = some 0x17 := by
  obtain ⟨p, hp, hOverlooked⟩ : ∃ p, _ ∧
      Overlooked p (.mosBit .rmb (.symbol "n" ⟨4, 1⟩)) 9 [0x17, 0x10] :=
    overlooked_of_check (fun p => late_bound_rmb) (by decide) (by decide +kernel)
  obtain ⟨blocks, hLink, -⟩ := hOverlooked.links
  obtain ⟨hLinks, hBytes, -⟩ := late_bound_range_check hOverlooked.late 0
  obtain ⟨b, hb, hByte⟩ := hBytes blocks 9 hLink hOverlooked.evaluate
  obtain ⟨-, hOthers⟩ := hLinks.mp ⟨blocks, hLink⟩
  exact ⟨p, hp, hOverlooked.late, hOthers, blocks, b, hLink, hb, List.head_eq_of_cons_eq hByte⟩

set_option maxRecDepth 10000 in
theorem late_bound_ldq {p : Program}
    (h : (Mos65.family.assemble { features := .full } {}
      "ldq #n\nn = $123456789\n").result = .ok p) :
    LateBound p 0 0 (.quadImmediate (.symbol "n" ⟨5, 1⟩)) := by
  have hAny : (Mos65.family.instructions { features := .full } {}
      "ldq #n\nn = $123456789\n").any (fun x => decide (x.region = 0 ∧ x.start = 0 ∧
        x.instruction.mnemonic = .quadAlu .lda ∧ x.instruction.first.mode = .immediate ∧
        x.instruction.first.value 0 = .symbol "n" ⟨5, 1⟩)) = true := by decide +kernel
  obtain ⟨x, hHas, hx⟩ := Family.HasInstruction.exists_of_any h hAny
  obtain ⟨hRegion, hStart, hOp, hMode, hValue⟩ := of_decide_eq_true hx
  have hLate := LateBound.quadImmediate hHas hOp hMode (by rw [hValue]; rfl)
  rwa [hRegion, hStart, hValue] at hLate

set_option maxRecDepth 10000 in
theorem late_bound_bit {p : Program}
    (h : (Z80.family.assemble { features := {.z80} } {} "bit n,b\nn = 16\n").result = .ok p) :
    LateBound p 0 0 (.z80Bit 0x40 1 (.symbol "n" ⟨4, 1⟩)) := by
  have hAny : (Z80.family.instructions { features := {.z80} } {} "bit n,b\nn = 16\n").any
      (fun x => decide (x.region = 0 ∧ x.start = 0 ∧ x.instruction.mnemonic = .bit .bit ∧
        x.instruction.first.value 0 = .symbol "n" ⟨4, 1⟩ ∧
        Z80.bitOpcode .bit (Z80.view x.instruction.second) = (0x40, 1))) = true := by
    decide +kernel
  obtain ⟨x, hHas, hx⟩ := Family.HasInstruction.exists_of_any h hAny
  obtain ⟨hRegion, hStart, hOp, hValue, hOpcode⟩ := of_decide_eq_true hx
  have hLate := LateBound.z80Bit hHas hOp (by rw [hValue]; rfl)
  rwa [hRegion, hStart, hValue, hOpcode] at hLate

set_option maxRecDepth 10000 in
/-- RMB 9 clears bit 1, LDQ drops the highest digit of its operand, and BIT 16 is assembled as SET 0. -/
theorem late_bound_out_of_range_links :
    (∃ p, (Mos65.family.assemble { features := {.base, .cmos, .rockwell} } {}
        "rmb n,$10\nn = 9\n").result = .ok p ∧
      Overlooked p (.mosBit .rmb (.symbol "n" ⟨4, 1⟩)) 9 [0x17, 0x10]) ∧
    (∃ p, (Mos65.family.assemble { features := .full } {}
        "ldq #n\nn = $123456789\n").result = .ok p ∧
      Overlooked p (.quadImmediate (.symbol "n" ⟨5, 1⟩)) 0x123456789
        [0xa9, 0x89, 0xa2, 0x67, 0xa0, 0x45, 0xa3, 0x23]) ∧
    ∃ p, (Z80.family.assemble { features := {.z80} } {} "bit n,b\nn = 16\n").result = .ok p ∧
      Overlooked p (.z80Bit 0x40 1 (.symbol "n" ⟨4, 1⟩)) 16 [0xcb, 0xc0] := by
  refine ⟨overlooked_of_check (fun p => late_bound_rmb) ?_ ?_,
    overlooked_of_check (fun p => late_bound_ldq) ?_ ?_,
    overlooked_of_check (fun p => late_bound_bit) ?_ ?_⟩
  all_goals decide +kernel

end CrossAsm
