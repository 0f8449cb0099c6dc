import CrossAsm.Z80.Opcode
import CrossAsm.Z80.View

/-!
# CrossAsm — native encodings of the Z80 family

One function for each group of instructions, by what the operands select. A combination that none of
them has is refused; those that can be expanded never get here.
-/

namespace CrossAsm.Z80

/-- A combination of operands that has no encoding is reported at the second operand if there is
one. -/
def unencodable (i : Instr) : Diagnostic :=
  let (index, o) := if i.second.mode = .none then (0, i.first) else (1, i.second)
  .invalidMode (Text.upper i.mnemonic.spelling) index [] o.span

/-- The operand needs the Z80N. -/
def requireNext (s : Setting Feature) (o : Operand Mode) (items : List Item) :
    Except Diagnostic (List Item) :=
  let required : Features := {.z80n}
  if s.has required then .ok items
  else .error (.unsupportedMode (Flag.label o.mode) required.text o.span)

/-- An opcode with a number in its bits from `shift` on. -/
def pack (opcode number shift : UInt8) : UInt8 := opcode ||| number <<< shift

/-- An opcode on `(IX+d)`. -/
def indexedItems (x : Index) (opcode : UInt8) (displacement : Expr) : List Item :=
  [.bytes [x.lead, opcode], .value displacement .signedByte]

/-- LD. -/
def loadItems (i : Instr) : Except Diagnostic (List Item) :=
  match view i.first, view i.second with
  | .register .m, .register .m => .error (unencodable i)
  | .register t, .register s => .ok [.bytes [pack 0x40 t.code 3 ||| s.code]]
  | .register t, .immediate e => .ok [.bytes [pack 0x06 t.code 3], .value e .byte]
  | .register .m, .indexed .. => .error (unencodable i)
  | .register t, .indexed x d => .ok (indexedItems x (pack 0x46 t.code 3) d)
  | .indexed .., .register .m => .error (unencodable i)
  | .indexed x d, .register s => .ok (indexedItems x (0x70 ||| s.code) d)
  | .indexed x d, .immediate e => .ok (indexedItems x 0x36 d ++ [.value e .byte])
  | .register .a, .indirect .bc => .ok [.bytes [0x0a]]
  | .register .a, .indirect .de => .ok [.bytes [0x1a]]
  | .indirect .bc, .register .a => .ok [.bytes [0x02]]
  | .indirect .de, .register .a => .ok [.bytes [0x12]]
  | .register .a, .memory e => .ok [.bytes [0x3a], .value e .word]
  | .memory e, .register .a => .ok [.bytes [0x32], .value e .word]
  | .register .a, .special sr => .ok [.bytes [0xed, pack 0x57 sr.code 3]]
  | .special sr, .register .a => .ok [.bytes [0xed, pack 0x47 sr.code 3]]
  | .pair p, .immediate e => .ok [.bytes [pack 0x01 p.code 4], .value e .word]
  | .index x, .immediate e => .ok [.bytes [x.lead, 0x21], .value e .word]
  | .pair .hl, .memory e => .ok [.bytes [0x2a], .value e .word]
  | .pair p, .memory e => .ok [.bytes [0xed, pack 0x4b p.code 4], .value e .word]
  | .index x, .memory e => .ok [.bytes [x.lead, 0x2a], .value e .word]
  | .memory e, .pair .hl => .ok [.bytes [0x22], .value e .word]
  | .memory e, .pair p => .ok [.bytes [0xed, pack 0x43 p.code 4], .value e .word]
  | .memory e, .index x => .ok [.bytes [x.lead, 0x22], .value e .word]
  | .pair .sp, .pair .hl => .ok [.bytes [0xf9]]
  | .pair .sp, .index x => .ok [.bytes [x.lead, 0xf9]]
  | _, _ => .error (unencodable i)

/-- PUSH and POP, by the opcode for BC. -/
def stackItems (i : Instr) (opcode : UInt8) : Except Diagnostic (List Item) :=
  match view i.first with
  | .pair .sp => .error (unencodable i)
  | .pair p => .ok [.bytes [pack opcode p.code 4]]
  | .accumulatorFlags => .ok [.bytes [opcode ||| 0x30]]
  | .index x => .ok [.bytes [x.lead, opcode ||| 0x20]]
  | _ => .error (unencodable i)

/-- PUSH; the Z80N also pushes an immediate. -/
def pushItems (s : Setting Feature) (i : Instr) : Except Diagnostic (List Item) :=
  match view i.first with
  | .immediate e => requireNext s i.first [.bytes [0xed, 0x8a], .value e .wordBigEndian]
  | _ => stackItems i 0xc5

/-- EX. -/
def exchangeItems (i : Instr) : Except Diagnostic (List Item) :=
  match view i.first, view i.second with
  | .pair .de, .pair .hl => .ok [.bytes [0xeb]]
  | .accumulatorFlags, .alternateFlags => .ok [.bytes [0x08]]
  | .indirect .sp, .pair .hl => .ok [.bytes [0xe3]]
  | .indirect .sp, .index x => .ok [.bytes [x.lead, 0xe3]]
  | _, _ => .error (unencodable i)

/-- Target and source of an accumulator operation; the target A may be left out. -/
def aluOperands (i : Instr) : View × View :=
  match view i.second with
  | .absent => (.register .a, view i.first)
  | source => (view i.first, source)

/-- The accumulator operations, and 16-bit addition and subtraction. -/
def aluItems (s : Setting Feature) (i : Instr) (op : Alu) : Except Diagnostic (List Item) :=
  match aluOperands i, op with
  | (.register .a, .register r), _ => .ok [.bytes [op.opcode ||| r.code]]
  | (.register .a, .immediate e), _ => .ok [.bytes [op.opcode ||| 0x46], .value e .byte]
  | (.register .a, .indexed x d), _ => .ok (indexedItems x (op.opcode ||| 0x06) d)
  | (.pair .hl, .pair p), .add => .ok [.bytes [pack 0x09 p.code 4]]
  | (.pair .hl, .pair p), .adc => .ok [.bytes [0xed, pack 0x4a p.code 4]]
  | (.pair .hl, .pair p), .sbc => .ok [.bytes [0xed, pack 0x42 p.code 4]]
  | (.index _, .pair .hl), _ => .error (unencodable i)
  | (.index x, .pair p), .add => .ok [.bytes [x.lead, pack 0x09 p.code 4]]
  | (.index x, .index y), .add =>
    if x = y then .ok [.bytes [x.lead, 0x29]] else .error (unencodable i)
  | (.pair p, .register .a), .add =>
    if p.isGeneral then requireNext s i.first [.bytes [0xed, 0x33 - p.code]]
    else .error (unencodable i)
  | (.pair p, .immediate e), .add =>
    if p.isGeneral then requireNext s i.first [.bytes [0xed, 0x36 - p.code], .value e .word]
    else .error (unencodable i)
  | _, _ => .error (unencodable i)

/-- INC and DEC, by the opcodes for register B, pair BC and an index register. -/
def incrementItems (i : Instr) (register pair index : UInt8) : Except Diagnostic (List Item) :=
  match view i.first with
  | .register r => .ok [.bytes [pack register r.code 3]]
  | .pair p => .ok [.bytes [pack pair p.code 4]]
  | .index x => .ok [.bytes [x.lead, index]]
  | .indexed x d => .ok (indexedItems x (0x30 ||| register) d)
  | _ => .error (unencodable i)

/-- Rotates and shifts of a byte. -/
def shiftItems (i : Instr) (op : Shift) : Except Diagnostic (List Item) :=
  match view i.first with
  | .register r => .ok [.bytes [0xcb, op.opcode ||| r.code]]
  | .indexed x d => .ok (indexedItems x 0xcb d ++ [.bytes [op.opcode ||| 0x06]])
  | _ => .error (unencodable i)

/-- BIT, RES and SET: the bit number goes into the opcode. -/
def bitItems (i : Instr) (op : BitOp) : Except Diagnostic (List Item) :=
  match (i.first.value 0).checkRange 0 7 with
  | .error d => .error d
  | .ok bit =>
    let opcode (r : Reg) : Item :=
      .value ((Expr.const (Value.ofNat (op.opcode ||| r.code).toNat) bit.span).mkOr (bit.shift 3)) .byte
    match view i.second with
    | .register r => .ok [.bytes [0xcb], opcode r]
    | .indexed x d => .ok (indexedItems x 0xcb d ++ [opcode .m])
    | _ => .error (unencodable i)

/-- JP. -/
def jumpItems (i : Instr) : Except Diagnostic (List Item) :=
  match conditional i with
  | (none, target) =>
    match view target with
    | .address e => .ok [.bytes [0xc3], .value e .word]
    | .register .m => .ok [.bytes [0xe9]]
    | .indexed x d =>
      if d.value? = some 0 then .ok [.bytes [x.lead, 0xe9]] else .error (unencodable i)
    | _ => .error (unencodable i)
  | (some cc, target) =>
    match view target with
    | .address e => .ok [.bytes [pack 0xc2 cc.code 3], .value e .word]
    | _ => .error (unencodable i)

/-- JR and DJNZ, by the opcode without a condition. Distances count from behind the instruction. -/
def relativeItems (s : Setting Feature) (i : Instr) (opcode : UInt8) :
    Except Diagnostic (List Item) :=
  let (cc?, target) := conditional i
  match view target, cc? with
  | .relative e, none => .ok [.bytes [opcode], .value (e.relativeTo s.counter 2) .signedByte]
  | .relative e, some cc =>
    if cc.isShort then
      .ok [.bytes [pack 0x20 cc.code 3], .value (e.relativeTo s.counter 2) .signedByte]
    else .error (unencodable i)
  | _, _ => .error (unencodable i)

/-- CALL. -/
def callItems (i : Instr) : Except Diagnostic (List Item) :=
  let (cc?, target) := conditional i
  match view target, cc? with
  | .address e, none => .ok [.bytes [0xcd], .value e .word]
  | .address e, some cc => .ok [.bytes [pack 0xc4 cc.code 3], .value e .word]
  | _, _ => .error (unencodable i)

/-- RET. -/
def returnItems (i : Instr) : List Item :=
  match view i.first with
  | .condition cc => [.bytes [pack 0xc0 cc.code 3]]
  | _ => [.bytes [0xc9]]

/-- The restart vectors: the multiples of eight up to `$38`. -/
def restartVectors : List (Value × UInt8) :=
  [(0x00, 0xc7), (0x08, 0xcf), (0x10, 0xd7), (0x18, 0xdf), (0x20, 0xe7), (0x28, 0xef), (0x30, 0xf7),
   (0x38, 0xff)]

/-- The opcodes of the interrupt modes behind `$ED`. -/
def interruptModes : List (Value × UInt8) := [(0, 0x46), (1, 0x56), (2, 0x5e)]

/-- The opcode a constant selects from a list. -/
def selected (e : Expr) (choices : List (Value × UInt8)) (kind : String) : Except Diagnostic UInt8 :=
  match e.value?.bind fun v => (choices.find? (·.1 = v)).map Prod.snd with
  | some opcode => .ok opcode
  | none => .error (.invalidConstant e.text kind e.span)

/-- IN. -/
def inputItems (i : Instr) : Except Diagnostic (List Item) :=
  match view i.first, view i.second with
  | .register .a, .ioPort e => .ok [.bytes [0xdb], .value e .byte]
  | .register r, .ioPortC => .ok [.bytes [0xed, pack 0x40 r.code 3]]
  | _, _ => .error (unencodable i)

/-- OUT. -/
def outputItems (i : Instr) : Except Diagnostic (List Item) :=
  match view i.first, view i.second with
  | .ioPort e, .register .a => .ok [.bytes [0xd3], .value e .byte]
  | .ioPortC, .register r => .ok [.bytes [0xed, pack 0x41 r.code 3]]
  | _, _ => .error (unencodable i)

/-- NEXTREG. -/
def nextItems (i : Instr) : Except Diagnostic (List Item) :=
  match view i.first, view i.second with
  | .immediate r, .immediate e => .ok [.bytes [0xed, 0x91], .value r .byte, .value e .byte]
  | .immediate r, .register .a => .ok [.bytes [0xed, 0x92], .value r .byte]
  | _, _ => .error (unencodable i)

/-- MUL, which exists for D and E only. -/
def multiplyItems (i : Instr) : Except Diagnostic (List Item) :=
  match view i.first, view i.second with
  | .register .d, .register .e => .ok [.bytes [0xed, 0x30]]
  | _, _ => .error (unencodable i)

/-- The encoding of a native instruction. -/
def native (s : Setting Feature) (i : Instr) : Except Diagnostic (List Item) :=
  match i.mnemonic with
  | .ld => loadItems i
  | .push => pushItems s i
  | .pop => stackItems i 0xc1
  | .ex => exchangeItems i
  | .alu op => aluItems s i op
  | .inc => incrementItems i 0x04 0x03 0x23
  | .dec => incrementItems i 0x05 0x0b 0x2b
  | .shift op => shiftItems i op
  | .bit op => bitItems i op
  | .jp => jumpItems i
  | .jr => relativeItems s i 0x18
  | .djnz => relativeItems s i 0x10
  | .call => callItems i
  | .ret => .ok (returnItems i)
  | .rst => do
    let opcode ← selected (i.first.value 0) restartVectors "restart vector"
    return [.bytes [opcode]]
  | .im => do
    let opcode ← selected (i.first.value 0) interruptModes "interrupt mode"
    return [.bytes [0xed, opcode]]
  | .input => inputItems i
  | .output => outputItems i
  | .implied op => .ok [.bytes op.bytes]
  | .nextreg => nextItems i
  | .mul => multiplyItems i
  | .test => .ok [.bytes [0xed, 0x27], .value (i.first.value 0) .byte]

end CrossAsm.Z80
