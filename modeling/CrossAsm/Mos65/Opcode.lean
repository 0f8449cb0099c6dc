import CrossAsm.Instruction
import CrossAsm.Mos65.Mnemonic
import CrossAsm.Mos65.Vocabulary

/-!
# CrossAsm — opcodes of the 65xx family

The accumulator and read-modify-write operations are regular: a base opcode of the operation plus an
offset of the mode. Branches, bit instructions and the irregular ones are listed.
-/

namespace CrossAsm.Mos65

-- --------
-- Regular operations
-- --------

/-- The base opcode of an accumulator operation. -/
def Alu.base : Alu → UInt8
  | .ora => 0x00 | .and => 0x20 | .eor => 0x40 | .adc => 0x60
  | .sta => 0x80 | .lda => 0xa0 | .cmp => 0xc0 | .sbc => 0xe0

/-- The modes of accumulator operations with what they add to the base opcode. `(zp)` and `(zp),Z` share
an opcode; `[zp],Z` is `(zp),Z` behind a NOP. -/
def Alu.offsets : List (Mode × UInt8) :=
  [(.indexedIndirect, 0x01), (.zeroPage, 0x05), (.immediate, 0x09), (.absolute, 0x0d),
   (.indirectIndexed, 0x11), (.zeroPageIndirect, 0x12), (.indirectZ, 0x12), (.indirectLongZ, 0x12),
   (.zeroPageX, 0x15), (.absoluteY, 0x19), (.absoluteX, 0x1d)]

/-- The modes of an accumulator operation: nothing is stored into an immediate, and only loads and
stores reach `(d,SP),Y`. -/
def Alu.modes (op : Alu) : Modes :=
  let regular : Modes := .ofList (Alu.offsets.map Prod.fst)
  match op with
  | .lda => regular ∪ {.stackIndirectY}
  | .sta => (regular ∪ {.stackIndirectY}) \ {.immediate}
  | _ => regular

/-- The base opcode of a read-modify-write operation. -/
def Modify.base : Modify → UInt8
  | .asl => 0x00 | .rol => 0x20 | .lsr => 0x40 | .ror => 0x60 | .dec => 0xc0 | .inc => 0xe0

/-- The modes of read-modify-write operations with what they add to the base opcode. -/
def Modify.offsets : List (Mode × UInt8) :=
  [(.none, 0x0a), (.accumulator, 0x0a), (.zeroPage, 0x06), (.absolute, 0x0e), (.zeroPageX, 0x16),
   (.absoluteX, 0x1e)]

/-- The modes of read-modify-write operations. -/
def Modify.modes : Modes := .ofList (Modify.offsets.map Prod.fst)

/-- The opcodes that INC and DEC have for the accumulator, on CMOS parts only. -/
def Modify.accumulatorOpcode? : Modify → Option UInt8
  | .inc => some 0x1a
  | .dec => some 0x3a
  | _ => none

/-- The opcode of the 8-bit branch on a condition. -/
def Condition.opcode : Condition → UInt8
  | .pl => 0x10 | .mi => 0x30 | .vc => 0x50 | .vs => 0x70
  | .cc => 0x90 | .cs => 0xb0 | .ne => 0xd0 | .eq => 0xf0

/-- The opcode of a bit instruction for bit 0; the bit number goes into bits 4 to 6. -/
def BitOp.opcode : BitOp → UInt8
  | .rmb => 0x07 | .smb => 0x87 | .bbr => 0x0f | .bbs => 0x8f

/-- The mode of a bit instruction. -/
def BitOp.mode : BitOp → Mode
  | .rmb | .smb => .zeroPageBit
  | .bbr | .bbs => .zeroPageBitRelative

-- --------
-- Listed instructions
-- --------

/-- One form of an instruction: its mode, its opcode and the feature the form needs. -/
structure Form where
  mode : Mode
  opcode : UInt8
  requires : Feature := .base
deriving DecidableEq, Repr

/-- The forms of an irregular instruction. -/
def Special.forms : Special → List Form
  | .ldx => [⟨.immediate, 0xa2, .base⟩, ⟨.zeroPage, 0xa6, .base⟩, ⟨.absolute, 0xae, .base⟩,
             ⟨.zeroPageY, 0xb6, .base⟩, ⟨.absoluteY, 0xbe, .base⟩]
  | .stx => [⟨.zeroPage, 0x86, .base⟩, ⟨.absolute, 0x8e, .base⟩, ⟨.zeroPageY, 0x96, .base⟩,
             ⟨.absoluteY, 0x9b, .ce02⟩]
  | .ldy => [⟨.immediate, 0xa0, .base⟩, ⟨.zeroPage, 0xa4, .base⟩, ⟨.absolute, 0xac, .base⟩,
             ⟨.zeroPageX, 0xb4, .base⟩, ⟨.absoluteX, 0xbc, .base⟩]
  | .sty => [⟨.zeroPage, 0x84, .base⟩, ⟨.absolute, 0x8c, .base⟩, ⟨.zeroPageX, 0x94, .base⟩,
             ⟨.absoluteX, 0x8b, .ce02⟩]
  | .cpx => [⟨.immediate, 0xe0, .base⟩, ⟨.zeroPage, 0xe4, .base⟩, ⟨.absolute, 0xec, .base⟩]
  | .cpy => [⟨.immediate, 0xc0, .base⟩, ⟨.zeroPage, 0xc4, .base⟩, ⟨.absolute, 0xcc, .base⟩]
  | .bit => [⟨.zeroPage, 0x24, .base⟩, ⟨.absolute, 0x2c, .base⟩, ⟨.zeroPageX, 0x34, .cmos⟩,
             ⟨.absoluteX, 0x3c, .cmos⟩, ⟨.immediate, 0x89, .cmos⟩]
  | .stz => [⟨.zeroPage, 0x64, .cmos⟩, ⟨.zeroPageX, 0x74, .cmos⟩, ⟨.absolute, 0x9c, .cmos⟩,
             ⟨.absoluteX, 0x9e, .cmos⟩]
  | .tsb => [⟨.zeroPage, 0x04, .cmos⟩, ⟨.absolute, 0x0c, .cmos⟩]
  | .trb => [⟨.zeroPage, 0x14, .cmos⟩, ⟨.absolute, 0x1c, .cmos⟩]
  | .jmp => [⟨.absolute, 0x4c, .base⟩, ⟨.indirect, 0x6c, .base⟩,
             ⟨.absoluteIndexedIndirect, 0x7c, .cmos⟩]
  | .jsr => [⟨.absolute, 0x20, .base⟩, ⟨.indirect, 0x22, .ce02⟩,
             ⟨.absoluteIndexedIndirect, 0x23, .ce02⟩]
  | .ldz => [⟨.immediate, 0xa3, .ce02⟩, ⟨.absolute, 0xab, .ce02⟩, ⟨.absoluteX, 0xbb, .ce02⟩]
  | .cpz => [⟨.immediate, 0xc2, .ce02⟩, ⟨.zeroPage, 0xd4, .ce02⟩, ⟨.absolute, 0xdc, .ce02⟩]
  | .phw => [⟨.immediateWord, 0xf4, .ce02⟩, ⟨.absolute, 0xfc, .ce02⟩]
  | .asw => [⟨.absolute, 0xcb, .ce02⟩]
  | .row => [⟨.absolute, 0xeb, .ce02⟩]
  | .inw => [⟨.zeroPage, 0xe3, .ce02⟩]
  | .dew => [⟨.zeroPage, 0xc3, .ce02⟩]
  | .asr => [⟨.none, 0x43, .ce02⟩, ⟨.accumulator, 0x43, .ce02⟩, ⟨.zeroPage, 0x44, .ce02⟩,
             ⟨.zeroPageX, 0x54, .ce02⟩]
  | .rtn => [⟨.immediate, 0x62, .ce02⟩]

/-- The feature an irregular instruction needs whatever its form. -/
def Special.requires : Special → Feature
  | .ldx | .stx | .ldy | .sty | .cpx | .cpy | .bit | .jmp | .jsr => .base
  | .stz | .tsb | .trb => .cmos
  | .ldz | .cpz | .phw | .asw | .row | .inw | .dew | .asr | .rtn => .ce02

/-- The modes of an irregular instruction. -/
def Special.modes (op : Special) : Modes := .ofList (op.forms.map Form.mode)

/-- The opcode of an instruction without operands. -/
def Implied.opcode : Implied → UInt8
  | .brk => 0x00 | .php => 0x08 | .clc => 0x18 | .plp => 0x28 | .sec => 0x38 | .rti => 0x40
  | .pha => 0x48 | .cli => 0x58 | .rts => 0x60 | .pla => 0x68 | .sei => 0x78 | .dey => 0x88
  | .txa => 0x8a | .tya => 0x98 | .txs => 0x9a | .tay => 0xa8 | .tax => 0xaa | .clv => 0xb8
  | .tsx => 0xba | .iny => 0xc8 | .dex => 0xca | .cld => 0xd8 | .inx => 0xe8 | .nop => 0xea
  | .sed => 0xf8 | .phy => 0x5a | .ply => 0x7a | .phx => 0xda | .plx => 0xfa | .cle => 0x02
  | .see => 0x03 | .tsy => 0x0b | .inz => 0x1b | .tys => 0x2b | .dez => 0x3b | .neg => 0x42
  | .taz => 0x4b | .map => 0x5c | .tab => 0x5b | .tza => 0x6b | .tba => 0x7b | .phz => 0xdb
  | .plz => 0xfb

/-- The feature an instruction without operands needs. -/
def Implied.requires : Implied → Feature
  | .phy | .ply | .phx | .plx => .cmos
  | .cle | .see | .tsy | .inz | .tys | .dez | .neg | .taz | .map | .tab | .tza | .tba | .phz
  | .plz => .ce02
  | _ => .base

-- --------
-- Entries
-- --------

/-- The modes of 32-bit accumulator operations. -/
def quadMemory : Modes := {.zeroPage, .absolute, .zeroPageIndirect, .indirectZ, .indirectLongZ}

/-- The modes of 32-bit read-modify-write operations. -/
def quadShift : Modes := {.none, .accumulator, .zeroPage, .zeroPageX, .absolute, .absoluteX}

/-- What each mnemonic needs and takes. -/
def entry : Mnemonic → Entry Mode Feature
  | .alu op => { requires := {.base}, first := op.modes }
  | .modify _ => { requires := {.base}, first := Modify.modes }
  | .special .phw => { requires := {.ce02}, first := Special.phw.modes, immediate := .word }
  | .special op => { requires := {op.requires}, first := op.modes }
  | .implied op => { requires := {op.requires}, first := {.none} }
  | .branch _ => { requires := {.base}, first := {.relative, .relativeLong} }
  | .bra => { requires := {.cmos}, first := {.relative, .relativeLong} }
  | .bsr => { requires := {.ce02}, first := {.relativeLong} }
  | .bit op => { requires := {.rockwell}, first := {op.mode} }
  | .quadAlu .lda =>
    { requires := {.gs02}, first := quadMemory ∪ {.immediate}, immediate := .doubleWord }
  | .quadAlu _ => { requires := {.gs02}, first := quadMemory }
  | .quadModify _ => { requires := {.gs02}, first := quadShift }
  | .bitq => { requires := {.gs02}, first := {.zeroPage, .absolute} }
  | .asrq => { requires := {.gs02}, first := quadShift \ {.absolute, .absoluteX} }
  | .jump _ => { requires := {.base}, first := {.absolute} }

end CrossAsm.Mos65
