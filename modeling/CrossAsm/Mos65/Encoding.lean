import CrossAsm.Mos65.Opcode

/-!
# CrossAsm — native encodings of the 65xx family

One function for each group of mnemonics. What is expanded has no encoding here.
-/

namespace CrossAsm.Mos65

/-- An instruction of this family. -/
abbrev Instr := Instruction Mnemonic Mode

/-- The width of the operand behind the opcode, if there is one. -/
def operandWidth? : Mode → Option Width
  | .none | .accumulator => none
  | .absolute | .absoluteX | .absoluteY | .indirect | .absoluteIndexedIndirect | .immediateWord =>
    some .word
  | .immediate => some .byte
  | _ => some .basePage

/-- The operand behind the opcode. -/
def operandItems (o : Operand Mode) : List Item :=
  match operandWidth? o.mode with
  | some w => [.value (o.value 0) w]
  | none => []

/-- There is no encoding for the mode. -/
def unencodable (i : Instr) : Diagnostic :=
  .invalidMode (Text.upper i.mnemonic.spelling) 0 [] i.first.span

/-- The mode needs a feature that is not active. -/
def lacking (o : Operand Mode) (required : Features) : Diagnostic :=
  .unsupportedMode (Flag.label o.mode) required.text o.span

/-- What belongs to a mode in a list. -/
def lookupMode {α : Type} (modes : List (Mode × α)) (mode : Mode) : Option α :=
  (modes.find? (·.1 = mode)).map Prod.snd

theorem mem_of_lookupMode {α : Type} {modes : List (Mode × α)} {mode : Mode} {a : α}
    (h : lookupMode modes mode = some a) : (mode, a) ∈ modes := by
  obtain ⟨⟨mode', a'⟩, hFind, rfl⟩ := Option.map_eq_some_iff.mp h
  obtain rfl : mode' = mode := by simpa using List.find?_some hFind
  exact List.mem_of_find?_eq_some hFind

/-- An accumulator operation. -/
def aluItems (i : Instr) (op : Alu) : Except Diagnostic (List Item) :=
  let o := i.first
  match o.mode, lookupMode Alu.offsets o.mode with
  | .stackIndirectY, _ =>
    .ok (.bytes [if op = .sta then 0x82 else 0xe2] :: operandItems o)
  | .indirectLongZ, some offset => .ok (.bytes [0xea] :: .bytes [op.base + offset] :: operandItems o)
  | _, some offset => .ok (.bytes [op.base + offset] :: operandItems o)
  | _, none => .error (unencodable i)

/-- A read-modify-write operation. -/
def modifyItems (s : Setting Feature) (i : Instr) (op : Modify) : Except Diagnostic (List Item) :=
  let o := i.first
  let accumulator := o.mode = .none ∨ o.mode = .accumulator
  match if accumulator then op.accumulatorOpcode? else none with
  | some opcode =>
    if s.has {.cmos} then .ok (.bytes [opcode] :: operandItems o) else .error (lacking o {.cmos})
  | none =>
    match lookupMode Modify.offsets o.mode with
    | some offset => .ok (.bytes [op.base + offset] :: operandItems o)
    | none => .error (unencodable i)

/-- An irregular instruction. -/
def specialItems (s : Setting Feature) (i : Instr) (op : Special) : Except Diagnostic (List Item) :=
  let o := i.first
  match op.forms.find? (·.mode = o.mode) with
  | some form =>
    if s.has {form.requires} then .ok (.bytes [form.opcode] :: operandItems o)
    else .error (lacking o {form.requires})
  | none => .error (unencodable i)

/-- Whether a branch takes the 16-bit form: if its operand says so, or if the CPU has that form and the
8-bit one does not reach a known target whose width is open. -/
def isLongBranch (s : Setting Feature) (o : Operand Mode) : Bool :=
  let unreachable := match ((o.value 0).relativeTo s.counter 2).value? with
    | some distance => !distance.within (-128) 127
    | none => false
  o.mode = .relativeLong || (unreachable && !o.forced && s.has {.ce02})

/-- A branch, by the opcodes of its two forms. Distances count from behind the instruction. -/
def branchItems (s : Setting Feature) (i : Instr) (short long : UInt8) : List Item :=
  let target := i.first.value 0
  if isLongBranch s i.first then
    [.bytes [long], .value (target.relativeTo s.counter 3) .signedWord]
  else [.bytes [short], .value (target.relativeTo s.counter 2) .signedByte]

/-- A bit instruction: the bit number goes into the opcode. -/
def bitItems (s : Setting Feature) (i : Instr) (op : BitOp) : Except Diagnostic (List Item) :=
  let o := i.first
  match (o.value 0).checkRange 0 7 with
  | .error d => .error d
  | .ok bit =>
    let opcode := (Expr.const (Value.ofNat op.opcode.toNat) bit.span).mkOr ((bit.mask 3).shift 4)
    let address := [Item.value opcode .byte, .value (o.value 1) .basePage]
    .ok (if o.mode = .zeroPageBitRelative then
        address ++ [.value ((o.value 2).relativeTo s.counter 3) .signedByte]
      else address)

/-- The encoding of a native instruction. -/
def native (s : Setting Feature) (i : Instr) : Except Diagnostic (List Item) :=
  match i.mnemonic with
  | .alu op => aluItems i op
  | .modify op => modifyItems s i op
  | .special op => specialItems s i op
  | .implied op => .ok [.bytes [op.opcode]]
  | .branch c => .ok (branchItems s i c.opcode (c.opcode ||| 0x03))
  | .bra => .ok (branchItems s i 0x80 0x83)
  | .bsr => .ok (branchItems s i 0x63 0x63)
  | .bit op => bitItems s i op
  | .quadAlu _ | .quadModify _ | .bitq | .asrq | .jump _ => .error (unencodable i)

end CrossAsm.Mos65
