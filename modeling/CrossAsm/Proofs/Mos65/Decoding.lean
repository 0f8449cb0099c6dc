import CrossAsm.Proofs.Assembly.Sequence
import CrossAsm.Proofs.LateBound
import CrossAsm.Proofs.Program.Code
import CrossAsm.Proofs.Program.Image
import CrossAsm.Proofs.Program.Layout
import Mathlib.Data.List.Nodup

/-!
# CrossAsm — reading 65xx code back

Without the 32-bit operations, whose prefix bytes are instructions themselves, an opcode tells all about its instruction
but the bytes behind it, and how many these are.

* `Shape` — what an opcode tells, and `Shape.nodup_opcodes`: no two shapes have the same one.
* `Reading` — an instruction as its code shows it. `Reading.flatMap_bytes_injective`: code has one reading.
* `Reading.Shows` — what a reading has of an instruction, and `shows_native`: the code of every native instruction
  has it.
* `Plain.exists_readings` — so the bytes of a program are the readings of its statements.
-/

namespace CrossAsm.Mos65

-- --------
-- Opcodes
-- --------

/-- The mode in which an operand is put out, with a field of two bytes or not. A missing operand is the accumulator,
and `(zp)` is `(zp),Z`. -/
def emitted : Mode → (wide : Bool) → Mode
  | .accumulator, _ => .none
  | .indirectZ, _ => .zeroPageIndirect
  | .relative, true => .relativeLong
  | mode, _ => mode

/-- What an opcode says. -/
structure Shape where
  mnemonic : Mnemonic
  mode : Mode
  /-- The bit number of a bit instruction. -/
  bit : Nat
deriving DecidableEq

namespace Shape

def opcode (shape : Shape) : UInt8 :=
  match shape.mnemonic with
  | .alu op =>
    if shape.mode = .stackIndirectY then if op = .sta then 0x82 else 0xe2
    else op.base + (lookupMode Alu.offsets shape.mode).getD 0
  | .modify op =>
    match if shape.mode = .none then op.accumulatorOpcode? else none with
    | some opcode => opcode
    | none => op.base + (lookupMode Modify.offsets shape.mode).getD 0
  | .special op => ((op.forms.find? (·.mode = shape.mode)).map Form.opcode).getD 0
  | .implied op => op.opcode
  | .branch c => if shape.mode = .relativeLong then c.opcode ||| 0x03 else c.opcode
  | .bra => if shape.mode = .relativeLong then 0x83 else 0x80
  | .bit op => UInt8.ofNat (op.opcode.toNat + 16 * shape.bit)
  | _ => 0x63

/-- The number of bytes behind the opcode. -/
def size (shape : Shape) : Nat :=
  match shape.mode with
  | .relativeLong | .zeroPageBitRelative => 2
  | mode => ((operandWidth? mode).map Width.size).getD 0

/-- The modes in which the operand of a mnemonic is put out. -/
def modes (m : Mnemonic) : List Mode := ((entry m).first \ {.accumulator, .indirectZ, .indirectLongZ}).toList

/-- How many bit numbers the opcodes of a mnemonic tell apart. What is expanded has no opcode. -/
def bits : Mnemonic → Nat
  | .bit _ => 8
  | .quadAlu _ | .quadModify _ | .bitq | .asrq | .jump _ => 0
  | _ => 1

/-- All shapes. -/
def all : List Shape :=
  Mnemonic.all.flatMap fun m => (modes m).flatMap fun mode => (List.range (bits m)).map (⟨m, mode, ·⟩)

theorem mem_all {shape : Shape} : shape ∈ all ↔ shape.mode ∈ modes shape.mnemonic ∧ shape.bit < bits shape.mnemonic := by
  cases shape
  simp [all, Mnemonic.mem_all]

/-- No two shapes have the same opcode. -/
theorem nodup_opcodes : (all.map fun shape => shape.opcode.toNat).Nodup := by
  decide +kernel

/-- The mnemonics whose operand stands behind the opcode as it is. -/
def isRegular : Mnemonic → Bool
  | .alu _ | .modify _ | .special _ | .implied _ => true
  | _ => false

/-- The mnemonics with a short and a long form. -/
def isBranch : Mnemonic → Bool
  | .branch _ | .bra | .bsr => true
  | _ => false

end Shape

/-- An instruction as its code shows it. -/
@[ext] structure Reading where
  shape : Shape
  /-- The bytes behind the opcode. -/
  field : List UInt8
  mem_all : shape ∈ Shape.all
  length_field : field.length = shape.size

namespace Reading

def bytes (r : Reading) : List UInt8 := r.shape.opcode :: r.field

/-- **Code is read in one way.** -/
theorem flatMap_bytes_injective {rs rs' : List Reading} (h : rs.flatMap bytes = rs'.flatMap bytes) : rs = rs' := by
  induction rs generalizing rs' with
  | nil =>
    cases rs' with
    | nil => rfl
    | cons r' rs' => simp [bytes] at h
  | cons r rs ih =>
    cases rs' with
    | nil => simp [bytes] at h
    | cons r' rs' =>
      obtain ⟨hOpcode, hRest⟩ : r.shape.opcode = r'.shape.opcode ∧
          r.field ++ rs.flatMap bytes = r'.field ++ rs'.flatMap bytes := List.cons.inj h
      have hShape : r.shape = r'.shape := List.inj_on_of_nodup_map Shape.nodup_opcodes r.mem_all r'.mem_all
        (congrArg UInt8.toNat hOpcode)
      have hLength : r.field.length = r'.field.length := by rw [r.length_field, r'.length_field, hShape]
      obtain ⟨hField, hMore⟩ := List.append_inj hRest hLength
      rw [Reading.ext hShape hField, ih hMore]

/-- The reading shows the instruction, whose operands have their values at link time. -/
structure Shows (r : Reading) (t : SymbolTable) (base : Value) (i : Instr) : Prop where
  mnemonic : r.shape.mnemonic = i.mnemonic
  mode     : r.shape.mode = emitted i.first.mode (r.field.length = 2)
  bit      : ∀ op, i.mnemonic = .bit op →
               ∃ v, t.evaluate base (i.first.value 0) = .ok v ∧ r.shape.bit = (v.toInt % 8).toNat

end Reading

-- --------
-- The code of an instruction
-- --------

section Native

variable {s : Setting Feature} {i : Instr} {items : List Item}

theorem aluItems_eq {op : Alu} (hLong : i.first.mode ≠ .indirectLongZ) (h : aluItems i op = .ok items)
    (wide : Bool) : items = .bytes [Shape.opcode ⟨.alu op, emitted i.first.mode wide, 0⟩] :: operandItems i.first := by
  have hOffsets : ∀ entry ∈ Alu.offsets, entry.1 ≠ .indirectLongZ → ∀ wide, emitted entry.1 wide ≠ .stackIndirectY ∧
      lookupMode Alu.offsets (emitted entry.1 wide) = some entry.2 := by decide
  unfold aluItems at h
  dsimp only at h
  split at h
  · next hStack =>
    rw [← Except.ok.inj h, hStack]
    rfl
  · next hMode _ => exact absurd hMode hLong
  · next hOffset _ _ =>
    obtain ⟨hStack, hEmitted⟩ := hOffsets _ (mem_of_lookupMode hOffset) hLong wide
    rw [← Except.ok.inj h, Shape.opcode]
    simp only [hEmitted, hStack, if_false, Option.getD_some]
  · cases h

theorem modifyItems_eq {op : Modify} (h : modifyItems s i op = .ok items) (wide : Bool) :
    items = .bytes [Shape.opcode ⟨.modify op, emitted i.first.mode wide, 0⟩] :: operandItems i.first := by
  have hOffsets : ∀ entry ∈ Modify.offsets, ∀ wide, lookupMode Modify.offsets (emitted entry.1 wide) = some entry.2 := by
    decide
  have hNone : (if emitted i.first.mode wide = .none then op.accumulatorOpcode? else none) =
      if i.first.mode = .none ∨ i.first.mode = .accumulator then op.accumulatorOpcode? else none := by
    cases i.first.mode <;> cases wide <;> rfl
  unfold modifyItems at h
  unfold Shape.opcode
  dsimp only at h ⊢
  rw [hNone]
  generalize (if i.first.mode = .none ∨ i.first.mode = .accumulator then op.accumulatorOpcode? else none) =
    accumulator? at h ⊢
  cases accumulator? with
  | some opcode =>
    dsimp only at h ⊢
    split at h
    · exact (Except.ok.inj h).symm
    · cases h
  | none =>
    dsimp only at h ⊢
    split at h
    · next offset hOffset =>
      rw [← Except.ok.inj h, hOffsets _ (mem_of_lookupMode hOffset) wide]
      rfl
    · cases h

theorem specialItems_eq {op : Special} (h : specialItems s i op = .ok items) (wide : Bool) :
    items = .bytes [Shape.opcode ⟨.special op, emitted i.first.mode wide, 0⟩] :: operandItems i.first := by
  have hForms : ∀ op ∈ Special.all, ∀ form ∈ op.forms, ∀ wide,
      (op.forms.find? (·.mode = emitted form.mode wide)).map Form.opcode = some form.opcode := by decide +kernel
  unfold specialItems at h
  dsimp only at h
  split at h
  · next form hFind =>
    split at h
    · have hMode : form.mode = i.first.mode := by simpa using List.find?_some hFind
      have hForm := hForms op (Special.mem_all op) form (List.mem_of_find?_eq_some hFind) wide
      simp only [← Except.ok.inj h, ← hMode, Shape.opcode, hForm, Option.getD_some]
    · cases h
  · cases h

variable {t : SymbolTable} {base : Value} {code field : List UInt8}
  (hMode : i.first.mode ∈ (entry i.mnemonic).first)
  (hLong : i.first.mode ≠ .indirectLongZ)

include hMode hLong

/-- An opcode with the field that its shape asks for. -/
theorem exists_shows {shape : Shape} (hMnemonic : shape.mnemonic = i.mnemonic)
    (hEmitted : shape.mode = emitted i.first.mode (field.length = 2)) (hBit : shape.bit < Shape.bits i.mnemonic)
    (hSize : field.length = shape.size)
    (hValue : ∀ op, i.mnemonic = .bit op →
      ∃ v, t.evaluate base (i.first.value 0) = .ok v ∧ shape.bit = (v.toInt % 8).toNat) :
    ∃ r : Reading, r.bytes = shape.opcode :: field ∧ r.Shows t base i := by
  have hModes : ∀ m ∈ Mnemonic.all, ∀ mode ∈ (entry m).first.toList, mode ≠ .indirectLongZ →
      ∀ wide, emitted mode wide ∈ Shape.modes m := by decide +kernel
  have hMem := hModes _ (Mnemonic.mem_all i.mnemonic) _ (List.mem_filter.mpr ⟨Flag.mem_all _, hMode⟩) hLong
  have hAll : shape ∈ Shape.all := by
    rw [Shape.mem_all, hMnemonic, hEmitted]
    exact ⟨hMem _, hBit⟩
  exact ⟨⟨shape, field, hAll, hSize⟩, rfl, hMnemonic, hEmitted, hValue⟩

/-- An opcode with its operand. -/
theorem shows_operand (hRegular : Shape.isRegular i.mnemonic = true)
    (hItems : ∀ wide, items = .bytes [Shape.opcode ⟨i.mnemonic, emitted i.first.mode wide, 0⟩] :: operandItems i.first)
    (hLinked : Item.Linked t base items code) : ∃ r : Reading, r.bytes = code ∧ r.Shows t base i := by
  have hTable : ∀ m ∈ Mnemonic.all, Shape.isRegular m = true → Shape.bits m = 1 ∧ ∀ mode ∈ (entry m).first.toList,
      ∀ wide, Shape.size ⟨m, emitted mode wide, 0⟩ = ((operandWidth? mode).map Width.size).getD 0 := by
    decide +kernel
  obtain ⟨hBits, hSizes⟩ := hTable _ (Mnemonic.mem_all _) hRegular
  rw [hItems (Item.total (operandItems i.first) = 2)] at hLinked
  obtain ⟨field, rfl, hOperand⟩ := hLinked.of_opcode
  refine exists_shows hMode hLong rfl (by rw [hOperand.length_eq]) (hBits ▸ Nat.one_pos) ?_ fun op hOp => ?_
  · rw [hSizes _ (List.mem_filter.mpr ⟨Flag.mem_all _, hMode⟩), hOperand.length_eq, operandItems]
    cases operandWidth? i.first.mode <;> rfl
  · rw [hOp] at hRegular
    cases hRegular

/-- A branch in the form that was put out. -/
theorem shows_branch (hBranch : Shape.isBranch i.mnemonic = true)
    (hLinked : Item.Linked t base (branchItems s i (Shape.opcode ⟨i.mnemonic, .relative, 0⟩)
      (Shape.opcode ⟨i.mnemonic, .relativeLong, 0⟩)) code) : ∃ r : Reading, r.bytes = code ∧ r.Shows t base i := by
  have hTable : ∀ m ∈ Mnemonic.all, Shape.isBranch m = true → Shape.bits m = 1 ∧
      ∀ mode ∈ (entry m).first.toList, mode = .relative ∨ mode = .relativeLong := by decide +kernel
  have hNot : ∀ op, i.mnemonic = .bit op → ∃ v, t.evaluate base (i.first.value 0) = .ok v ∧ 0 = (v.toInt % 8).toNat := by
    intro op hOp
    rw [hOp] at hBranch
    cases hBranch
  obtain ⟨hBits, hModes⟩ := hTable _ (Mnemonic.mem_all _) hBranch
  have hFirst := hModes _ (List.mem_filter.mpr ⟨Flag.mem_all _, hMode⟩)
  unfold branchItems at hLinked
  dsimp only at hLinked
  split at hLinked
  · obtain ⟨field, rfl, hField⟩ := hLinked.of_opcode
    refine exists_shows hMode hLong rfl ?_ (hBits ▸ Nat.one_pos) hField.length_eq hNot
    rw [hField.length_eq]
    rcases hFirst with h | h <;> rw [h] <;> rfl
  · next hShort =>
    obtain ⟨field, rfl, hField⟩ := hLinked.of_opcode
    refine exists_shows hMode hLong rfl ?_ (hBits ▸ Nat.one_pos) hField.length_eq hNot
    rw [hField.length_eq]
    rcases hFirst with h | h
    · rw [h]
      rfl
    · simp [isLongBranch, h] at hShort

/-- A bit instruction: its opcode has the bit number modulo eight. -/
theorem shows_bit {op : BitOp} (hOp : i.mnemonic = .bit op) (hItems : bitItems s i op = .ok items)
    (hLinked : Item.Linked t base items code) : ∃ r : Reading, r.bytes = code ∧ r.Shows t base i := by
  have hFirst : i.first.mode = op.mode := by
    rw [hOp] at hMode
    exact of_decide_eq_true hMode
  unfold bitItems at hItems
  dsimp only at hItems
  split at hItems
  · cases hItems
  · next bit hBit =>
    obtain rfl := Encoder.eq_of_checkRange hBit
    obtain ⟨distance, rfl, hTotal⟩ : ∃ distance, items = .value ((Expr.const (Value.ofNat op.opcode.toNat)
        (i.first.value 0).span).mkOr (((i.first.value 0).mask 3).shift 4)) .byte :: distance ∧
          Item.total distance = Shape.size ⟨.bit op, op.mode, 0⟩ := by
      rw [← Except.ok.inj hItems, hFirst]
      cases op <;> exact ⟨_, rfl, rfl⟩
    cases hLinked with
    | value hOpcode _ hField =>
      change Expr.evaluate _ _ _ = _ at hOpcode
      rw [Expr.evaluate_const_mkOr, Expr.evaluate_shift, Expr.evaluate_mask] at hOpcode
      obtain ⟨_, hShift, rfl⟩ := Action.map_eq_ok.mp hOpcode
      obtain ⟨_, hMask, rfl⟩ := Action.map_eq_ok.mp hShift
      obtain ⟨v, hValue, rfl⟩ := Action.map_eq_ok.mp hMask
      rw [(mosBit_value op v).2]
      have hSize : _ = Shape.size ⟨.bit op, op.mode, (v.toInt % 8).toNat⟩ := hField.length_eq.trans hTotal
      refine exists_shows hMode hLong hOp.symm ?_ ?_ hSize fun _ _ => ⟨v, hValue, rfl⟩
      · have hKept (wide : Bool) : emitted op.mode wide = op.mode := by cases op <;> rfl
        rw [hFirst, hKept]
      · rw [hOp]
        show (v.toInt % 8).toNat < 8
        omega

/-- **The code of a native instruction** shows it. -/
theorem shows_native (hNative : native s i = .ok items) (hLinked : Item.Linked t base items code) :
    ∃ r : Reading, r.bytes = code ∧ r.Shows t base i := by
  obtain ⟨m, o, o₂⟩ := i
  cases m with
  | alu op => exact shows_operand hMode hLong rfl (aluItems_eq hLong hNative) hLinked
  | modify op => exact shows_operand hMode hLong rfl (modifyItems_eq hNative) hLinked
  | special op => exact shows_operand hMode hLong rfl (specialItems_eq hNative) hLinked
  | implied op =>
    have hNone : o.mode = .none := of_decide_eq_true hMode
    refine shows_operand hMode hLong rfl (fun wide => ?_) hLinked
    rw [← Except.ok.inj hNative]
    show _ = _ :: operandItems o
    rw [operandItems, hNone]
    rfl
  | branch c =>
    cases hNative
    exact shows_branch hMode hLong rfl hLinked
  | bra =>
    cases hNative
    exact shows_branch hMode hLong rfl hLinked
  | bsr =>
    cases hNative
    exact shows_branch hMode hLong rfl hLinked
  | bit op => exact shows_bit hMode hLong rfl hNative hLinked
  | quadAlu op | quadModify op | bitq | asrq | jump c => cases hNative

end Native

-- --------
-- The code of a program
-- --------

variable {machine : Machine Feature} {policy : Policy} {source : String} {p : Program} {base : Value}
  {bytes : List UInt8} {s : Assembly Feature} {w : Pending Mnemonic Feature}

/-- A program of instructions for a CPU without 32-bit operations, none of them a jump on a condition, and the bytes
that it is linked to. -/
structure Plain (machine : Machine Feature) (policy : Policy) (source : String) (p : Program) (base : Value)
    (bytes : List UInt8) : Prop where
  features     : .gs02 ∉ machine.features
  instructions : ∀ s ∈ family.statements machine policy source,
                   ∃ w, Assembly.pending? family s = some w ∧ ∀ c, w.mnemonic ≠ .jump c
  assembled    : (family.assemble machine policy source).result = .ok p
  linked       : p.link base = .ok bytes

/-- The statement in state `s` is an instruction, and `r` shows it. -/
def Reads (p : Program) (base : Value) (s : Assembly Feature) (r : Reading) : Prop :=
  ∃ blocks w i start, p.linkSections base = .ok blocks ∧ Assembly.pending? family s = some w ∧
    family.Emits p blocks s w i start r.bytes ∧ r.Shows p.symbols base i

/-- An instruction that is not expanded. -/
theorem expansion?_of_requires {st : Setting Feature} {i : Instr} (hFeature : .gs02 ∉ (entry i.mnemonic).requires)
    (hJump : ∀ c, i.mnemonic ≠ .jump c) : expansion? st i = none := by
  obtain ⟨m, o, o₂⟩ := i
  cases m with
  | alu _ | modify _ | special _ | implied _ | branch _ | bra | bsr | bit _ => rfl
  | quadAlu op => cases op <;> exact absurd rfl hFeature
  | quadModify _ | bitq | asrq => exact absurd rfl hFeature
  | jump c => exact absurd rfl (hJump c)

/-- **The code of an instruction** shows it. -/
theorem exists_reads {blocks : List Block} (hAssembled : (family.assemble machine policy source).result = .ok p)
    (hLinked : p.linkSections base = .ok blocks) (hs : s ∈ family.states machine policy source)
    (hw : Assembly.pending? family s = some w) (hJump : ∀ c, w.mnemonic ≠ .jump c)
    (hFeatures : .gs02 ∉ s.machine.features) : ∃ r, Reads p base s r := by
  obtain ⟨i, start, code, e, hEmits, hFinish, hPlaced⟩ := Family.emitted_instruction hAssembled hLinked hs hw
  have hLacks : .gs02 ∉ (w.site policy).machine.features := by
    obtain ⟨symbols, c, hState⟩ := Assembly.relabels_of_pending? hw
    show .gs02 ∉ w.state.machine.features
    rw [hState]
    exact hFeatures
  have hSupports {required : Features} (h : (w.site policy).machine.supports required = true) : .gs02 ∉ required :=
    fun hMem => hLacks (FlagSet.includes_iff.mp h _ hMem)
  have hNone : expansion? (Encoder.setting (w.site policy) w.encoder) i = none := by
    obtain ⟨-, -, s', hRun, -⟩ :=
      Family.accepted_statement hAssembled hs (Assembly.not_isAt_newline_of_pending? hw)
    obtain ⟨c, e, hDispatch, -⟩ := Assembly.dispatch_of_wholeStatement hRun hw
    have hCheck := Encoder.features_of_dispatch hDispatch
    unfold Encoder.checkFeatures at hCheck
    dsimp only at hCheck
    split at hCheck
    · next hRequired => exact expansion?_of_requires (hEmits.mnemonic ▸ hSupports hRequired) (hEmits.mnemonic ▸ hJump)
    · cases hCheck
  have hLong : i.first.mode ≠ .indirectLongZ := by
    intro hMode
    have hRequired := hSupports (Encoder.supports_of_finish hFinish)
    rw [hMode] at hRequired
    exact hRequired rfl
  obtain ⟨items, hNative, hWrites⟩ := Encoder.native_of_finish hFinish hNone
  obtain ⟨r, rfl, hShows⟩ :=
    shows_native (Encoder.mode_of_finish hFinish) hLong hNative (hPlaced.linked items hWrites)
  exact ⟨r, blocks, w, i, start, hLinked, hw, hEmits, hShows⟩

theorem exists_readings {block : Block} {es : List ListingLine} {xs : List (Assembly Feature)}
    (hLinked : p.linkSections base = .ok [block]) (hReads : ∀ x ∈ xs, ∃ r, Reads p base x r)
    (h : List.Forall₂ (fun x e => p.listing[x.listing.length]? = some e) xs es) :
    ∃ rs, List.Forall₂ (Reads p base) xs rs ∧
      rs.flatMap Reading.bytes = es.flatMap fun e => Section.field block.bytes e.offset e.length := by
  induction h with
  | nil => exact ⟨[], .nil, rfl⟩
  | cons hEntry _ ih =>
    obtain ⟨⟨r, hRead⟩, hReads⟩ := List.forall_mem_cons.mp hReads
    obtain ⟨rs, hAll, hBytes⟩ := ih hReads
    refine ⟨r :: rs, .cons hRead hAll, ?_⟩
    obtain ⟨blocks, w, i, start, hBlocks, -, hEmits, -⟩ := hRead
    obtain ⟨entry, b, hListed, hBlock, -, hCode, -⟩ := hEmits.listed
    obtain rfl := Except.ok.inj (hBlocks.symm.trans hLinked)
    obtain rfl := Option.some.inj (hListed.symm.trans hEntry)
    obtain rfl := List.mem_singleton.mp (List.mem_of_getElem? hBlock)
    rw [List.flatMap_cons, List.flatMap_cons, hBytes, hCode]

/-- **The readings of a program** make up its bytes. -/
theorem Plain.exists_readings (h : Plain machine policy source p base bytes) :
    ∃ rs, List.Forall₂ (Reads p base) (family.statements machine policy source) rs ∧
      rs.flatMap Reading.bytes = bytes := by
  obtain ⟨r, hSequence⟩ := Family.exists_sequence h.assembled fun s hs =>
    (h.instructions s hs).imp fun _ hw => hw.1
  obtain ⟨block, hBlocks, hBytes, hOut⟩ := Program.link_singleton hSequence.regions h.linked
  have hReads : ∀ s ∈ family.statements machine policy source, ∃ r, Reads p base s r := by
    intro s hs
    obtain ⟨w, hw, hJump⟩ := h.instructions s hs
    refine exists_reads h.assembled hBlocks (List.mem_filter.mp hs).1 hw hJump ?_
    rw [hSequence.machine s hs]
    exact h.features
  obtain ⟨rs, hAll, hFields⟩ := Mos65.exists_readings hBlocks hReads hSequence.entries
  have hSize : bytes.length = r.output.size := by
    refine (Family.wellFormed_program h.assembled r ?_).length_link hOut
    rw [hSequence.regions]
    exact List.mem_singleton_self r
  refine ⟨rs, hAll, ?_⟩
  rw [hFields, hSequence.tiles.flatMap_field, hBytes, ← hSize]
  exact List.take_length

/-- **65xx code is uniquely decodable.** -/
theorem plain_code_decodable {machine' : Machine Feature} {policy' : Policy} {source' : String} {p' : Program}
    {base' : Value} (h : Plain machine policy source p base bytes) (h' : Plain machine' policy' source' p' base' bytes) :
    ∃ readings, List.Forall₂ (Reads p base) (family.statements machine policy source) readings ∧
      List.Forall₂ (Reads p' base') (family.statements machine' policy' source') readings := by
  obtain ⟨rs, hReads, hBytes⟩ := h.exists_readings
  obtain ⟨rs', hReads', hBytes'⟩ := h'.exists_readings
  obtain rfl := Reading.flatMap_bytes_injective (hBytes.trans hBytes'.symm)
  exact ⟨rs, hReads, hReads'⟩

theorem plain_of_check {address : Value} {span : Span} (hFeatures : .gs02 ∉ machine.features)
    (hStatements : ((family.statements machine policy source).all fun s =>
      (Assembly.pending? family s).any fun w => Shape.bits w.mnemonic ≠ 0) = true)
    (hBlock : ((family.assemble machine policy source).result.toOption.bind fun p => (p.linkSections base).toOption) =
      some [⟨address, bytes, span⟩]) : ∃ p, Plain machine policy source p base bytes := by
  obtain ⟨p, hp, hBlocks⟩ := Option.bind_eq_some_iff.mp hBlock
  refine ⟨p, hFeatures, fun s hs => ?_, Action.ok_of_toOption hp,
    Program.link_of_image (Action.ok_of_toOption hBlocks) (Block.image_singleton _)⟩
  have hPending := List.all_eq_true.mp hStatements s hs
  cases hw : Assembly.pending? family s with
  | none =>
    rw [hw] at hPending
    cases hPending
  | some w =>
    rw [hw] at hPending
    refine ⟨w, rfl, fun c hJump => ?_⟩
    rw [Option.any_some, hJump] at hPending
    cases hPending

/-- A missing operand is the accumulator, and a label is an address. -/
theorem plain_code_decodable_shift :
    let machine : Machine Feature := { features := {.base} }
    let source := "asl\nbne *+3\n"
    let source' := "begin: asl a\nbne begin+4\n"
    ∃ p p' readings, Plain machine {} source p 0 [0x0a, 0xd0, 0x01] ∧
      Plain machine {} source' p' 0 [0x0a, 0xd0, 0x01] ∧
      List.Forall₂ (Reads p 0) (family.statements machine {} source) readings ∧
      List.Forall₂ (Reads p' 0) (family.statements machine {} source') readings := by
  intro machine source source'
  obtain ⟨p, h⟩ : ∃ p, Plain machine {} source p 0 [0x0a, 0xd0, 0x01] :=
    @plain_of_check _ _ _ _ _ 0 ⟨0, 0⟩ (by decide) (by decide +kernel) (by decide +kernel)
  obtain ⟨p', h'⟩ : ∃ p, Plain machine {} source' p 0 [0x0a, 0xd0, 0x01] :=
    @plain_of_check _ _ _ _ _ 0 ⟨0, 0⟩ (by decide) (by decide +kernel) (by decide +kernel)
  obtain ⟨readings, hReads, hReads'⟩ := plain_code_decodable h h'
  exact ⟨p, p', readings, h, h', hReads, hReads'⟩

end CrossAsm.Mos65
