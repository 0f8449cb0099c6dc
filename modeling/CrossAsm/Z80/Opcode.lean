import CrossAsm.Instruction
import CrossAsm.Z80.Mnemonic
import CrossAsm.Z80.Vocabulary

/-!
# CrossAsm — opcodes of the Z80 family

The opcodes of the regular groups, the instructions without operands, and what each mnemonic needs and
takes.
-/

namespace CrossAsm.Z80

/-- The opcode of an accumulator operation with register B. -/
def Alu.opcode : Alu → UInt8
  | .add => 0x80 | .adc => 0x88 | .sub => 0x90 | .sbc => 0x98
  | .and => 0xa0 | .xor => 0xa8 | .or => 0xb0 | .cp => 0xb8

/-- The opcode of a shift of register B. -/
def Shift.opcode : Shift → UInt8
  | .rlc => 0x00 | .rrc => 0x08 | .rl => 0x10 | .rr => 0x18
  | .sla => 0x20 | .sra => 0x28 | .sll => 0x30 | .srl => 0x38

/-- Whether the shift can be continued through the carry, so that a pair can be shifted. -/
def Shift.takesPair : Shift → Bool
  | .rl | .rr | .sla | .sra | .srl => true
  | .rlc | .rrc | .sll => false

/-- The opcode of a bit operation on bit 0 of register B. -/
def BitOp.opcode : BitOp → UInt8
  | .bit => 0x40 | .res => 0x80 | .set => 0xc0

/-- The bytes of an instruction without operands. -/
def Implied.bytes : Implied → List UInt8
  | .nop => [0x00] | .halt => [0x76] | .di => [0xf3] | .ei => [0xfb] | .exx => [0xd9] | .daa => [0x27]
  | .cpl => [0x2f] | .ccf => [0x3f] | .scf => [0x37] | .rlca => [0x07] | .rrca => [0x0f]
  | .rla => [0x17] | .rra => [0x1f]
  | .neg => [0xed, 0x44] | .reti => [0xed, 0x4d] | .retn => [0xed, 0x45] | .rld => [0xed, 0x6f]
  | .rrd => [0xed, 0x67] | .ldi => [0xed, 0xa0] | .cpi => [0xed, 0xa1] | .ini => [0xed, 0xa2]
  | .outi => [0xed, 0xa3] | .ldd => [0xed, 0xa8] | .cpd => [0xed, 0xa9] | .ind => [0xed, 0xaa]
  | .outd => [0xed, 0xab] | .ldir => [0xed, 0xb0] | .cpir => [0xed, 0xb1] | .inir => [0xed, 0xb2]
  | .otir => [0xed, 0xb3] | .lddr => [0xed, 0xb8] | .cpdr => [0xed, 0xb9] | .indr => [0xed, 0xba]
  | .otdr => [0xed, 0xbb]
  | .swapnib => [0xed, 0x23] | .mirrorBits => [0xed, 0x24] | .outinb => [0xed, 0x90]
  | .pixeldn => [0xed, 0x93] | .pixelad => [0xed, 0x94] | .setae => [0xed, 0x95]
  | .ldix => [0xed, 0xa4] | .ldws => [0xed, 0xa5] | .lddx => [0xed, 0xac] | .ldirx => [0xed, 0xb4]
  | .ldpirx => [0xed, 0xb7] | .lddrx => [0xed, 0xbc]

/-- The feature an instruction without operands needs. -/
def Implied.requires : Implied → Feature
  | .swapnib | .mirrorBits | .outinb | .pixeldn | .pixelad | .setae | .ldix | .ldws | .lddx | .ldirx
  | .ldpirx | .lddrx => .z80n
  | _ => .z80

/-- An 8-bit operand. -/
def byteOperand : Modes := {.register, .registerIndirect, .indexed}

/-- An operand of LD. -/
def loadOperand : Modes := byteOperand ∪ {.pair, .index, .special, .memory}

/-- An operand of an accumulator operation. -/
def aluOperand : Modes := byteOperand ∪ {.immediate, .pair, .index}

/-- The target of JP. -/
def jumpTarget : Modes := {.address, .registerIndirect, .indexed}

/-- What each mnemonic needs and takes. -/
def entry : Mnemonic → Entry Mode Feature
  | .ld => { requires := {.z80}, first := loadOperand, second := some (loadOperand ∪ {.immediate}),
             immediate := .word }
  | .push => { requires := {.z80}, first := {.pair, .accumulatorFlags, .index, .immediate},
               immediate := .word }
  | .pop => { requires := {.z80}, first := {.pair, .accumulatorFlags, .index} }
  | .ex => { requires := {.z80}, first := {.pair, .accumulatorFlags, .registerIndirect},
             second := some {.pair, .alternateFlags, .index} }
  | .alu _ => { requires := {.z80}, first := aluOperand, second := some (aluOperand ∪ {.none}) }
  | .inc | .dec => { requires := {.z80}, first := byteOperand ∪ {.pair, .index} }
  | .shift op =>
    { requires := {.z80}, first := if op.takesPair then byteOperand ∪ {.pair} else byteOperand }
  | .bit _ => { requires := {.z80}, first := {.immediate}, second := some byteOperand }
  | .jp => { requires := {.z80}, first := {.condition} ∪ jumpTarget, second := some (jumpTarget ∪ {.none}) }
  | .jr => { requires := {.z80}, first := {.condition, .relative}, second := some {.relative, .none} }
  | .djnz => { requires := {.z80}, first := {.relative} }
  | .call => { requires := {.z80}, first := {.condition, .address}, second := some {.address, .none} }
  | .ret => { requires := {.z80}, first := {.condition, .none} }
  | .rst | .im => { requires := {.z80}, first := {.immediate} }
  | .input => { requires := {.z80}, first := {.register}, second := some {.ioPort, .ioPortC} }
  | .output => { requires := {.z80}, first := {.ioPort, .ioPortC}, second := some {.register} }
  | .implied op => { requires := {op.requires}, first := {.none} }
  | .nextreg =>
    { requires := {.z80n}, first := {.immediate}, second := some {.immediate, .register} }
  | .mul => { requires := {.z80n}, first := {.register}, second := some {.register} }
  | .test => { requires := {.z80n}, first := {.immediate} }

end CrossAsm.Z80
