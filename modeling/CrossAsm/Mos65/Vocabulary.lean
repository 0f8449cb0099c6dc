import CrossAsm.Flag
import CrossAsm.Text.Case

/-!
# CrossAsm — features, CPUs and addressing modes of the 65xx family

The NMOS 6502, the 65C02 with the Rockwell bit instructions, the 65CE02 and 4510, and the 45GS02.
-/

namespace CrossAsm.Mos65

-- --------
-- Features
-- --------

/-- Parts of the instruction set that a CPU may have. -/
inductive Feature where
  /-- The NMOS 6502. -/
  | base
  /-- The additions of the 65C02. -/
  | cmos
  /-- The bit instructions RMB, SMB, BBR and BBS. -/
  | rockwell
  /-- The additions of the 65CE02: Z and B registers, 16-bit branches, word operations. -/
  | ce02
  /-- The additions of the 45GS02: 32-bit operations and 32-bit pointers. -/
  | gs02
deriving DecidableEq, Repr

instance : Flag Feature where
  all := [.base, .cmos, .rockwell, .ce02, .gs02]
  label
    | .base => "base"
    | .cmos => "cmos"
    | .rockwell => "rockwell"
    | .ce02 => "ce02"
    | .gs02 => "gs02"
  mem_all f := by cases f <;> simp

/-- A set of features. -/
abbrev Features := FlagSet Feature

/-- The features of a CPU, by its name in any letter case. -/
def cpu? (name : String) : Option Features :=
  match Text.lower name with
  | "6502" => some {.base}
  | "65c02" => some {.base, .cmos, .rockwell}
  | "65ce02" | "4510" => some {.base, .cmos, .rockwell, .ce02}
  | "45gs02" => some .full
  | _ => none

-- --------
-- Addressing modes
-- --------

/-- The addressing modes. -/
inductive Mode where
  | none
  /-- `A` -/
  | accumulator
  /-- `#byte` -/
  | immediate
  /-- `#word` -/
  | immediateWord
  /-- `zp` -/
  | zeroPage
  /-- `zp,X` -/
  | zeroPageX
  /-- `zp,Y` -/
  | zeroPageY
  /-- `abs` -/
  | absolute
  /-- `abs,X` -/
  | absoluteX
  /-- `abs,Y` -/
  | absoluteY
  /-- `(abs)` -/
  | indirect
  /-- `(zp)` -/
  | zeroPageIndirect
  /-- `(zp,X)` -/
  | indexedIndirect
  /-- `(abs,X)` -/
  | absoluteIndexedIndirect
  /-- `(zp),Y` -/
  | indirectIndexed
  /-- `(zp),Z` -/
  | indirectZ
  /-- `[zp],Z` or `[zp]`, through a 32-bit pointer -/
  | indirectLongZ
  /-- `(d,SP),Y` -/
  | stackIndirectY
  /-- 8-bit branch target -/
  | relative
  /-- 16-bit branch target -/
  | relativeLong
  /-- `bit,zp` -/
  | zeroPageBit
  /-- `bit,zp,target` -/
  | zeroPageBitRelative
deriving DecidableEq, Repr

instance : Flag Mode where
  all :=
    [.none, .accumulator, .immediate, .immediateWord, .zeroPage, .zeroPageX, .zeroPageY, .absolute,
     .absoluteX, .absoluteY, .indirect, .zeroPageIndirect, .indexedIndirect,
     .absoluteIndexedIndirect, .indirectIndexed, .indirectZ, .indirectLongZ, .stackIndirectY,
     .relative, .relativeLong, .zeroPageBit, .zeroPageBitRelative]
  label
    | .none => "none"
    | .accumulator => "accumulator"
    | .immediate => "immediate"
    | .immediateWord => "immediate word"
    | .zeroPage => "zero page"
    | .zeroPageX => "zero page x"
    | .zeroPageY => "zero page y"
    | .absolute => "absolute"
    | .absoluteX => "absolute x"
    | .absoluteY => "absolute y"
    | .indirect => "indirect"
    | .zeroPageIndirect => "zero page indirect"
    | .indexedIndirect => "indexed indirect"
    | .absoluteIndexedIndirect => "absolute indexed indirect"
    | .indirectIndexed => "indirect indexed"
    | .indirectZ => "indirect z"
    | .indirectLongZ => "indirect long z"
    | .stackIndirectY => "stack indirect y"
    | .relative => "relative"
    | .relativeLong => "relative long"
    | .zeroPageBit => "zero page bit"
    | .zeroPageBitRelative => "zero page bit relative"
  mem_all m := by cases m <;> simp

/-- A set of addressing modes. -/
abbrev Modes := FlagSet Mode

/-- The features a mode needs whatever the instruction. -/
def modeRequires : Mode → Features
  | .zeroPageIndirect | .absoluteIndexedIndirect => {.cmos}
  | .zeroPageBit | .zeroPageBitRelative => {.rockwell}
  | .indirectZ | .stackIndirectY | .relativeLong | .immediateWord => {.ce02}
  | .indirectLongZ => {.gs02}
  | _ => {.base}

/-- The wide modes with the narrow modes of the same syntax. -/
def narrowing : List (Mode × Mode) :=
  [(.absolute, .zeroPage), (.absoluteX, .zeroPageX), (.absoluteY, .zeroPageY),
   (.indirect, .zeroPageIndirect), (.absoluteIndexedIndirect, .indexedIndirect)]

/-- The register names, which are never symbols. -/
def registers : List String := ["a", "x", "y", "z", "sp"]

/-- Whether a name is a register in any letter case. -/
def isReserved (name : String) : Bool := registers.any (Text.sameWord name)

end CrossAsm.Mos65
