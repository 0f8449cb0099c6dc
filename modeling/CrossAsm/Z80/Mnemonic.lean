import CrossAsm.Text.Case

/-!
# CrossAsm — mnemonics of the Z80 family

The mnemonics are grouped by how they are encoded.
-/

namespace CrossAsm.Z80

/-- Operations of the accumulator. -/
inductive Alu where
  | add | adc | sub | sbc | and | xor | or | cp
deriving DecidableEq, Repr

/-- Rotates and shifts. -/
inductive Shift where
  | rlc | rrc | rl | rr | sla | sra | sll | srl
deriving DecidableEq, Repr

/-- Operations on single bits. -/
inductive BitOp where
  | bit | res | set
deriving DecidableEq, Repr

/-- Instructions without operands. -/
inductive Implied where
  | nop | halt | di | ei | exx | daa | cpl | ccf | scf | rlca | rrca | rla | rra | neg | reti | retn | rld
  | rrd | ldi | ldir | ldd | lddr | cpi | cpir | cpd | cpdr | ini | inir | ind | indr | outi | otir
  | outd | otdr
  | swapnib | mirrorBits | pixeldn | pixelad | setae | outinb | ldix | ldws | lddx | ldirx | ldpirx
  | lddrx
deriving DecidableEq, Repr

/-- The mnemonics of the family. -/
inductive Mnemonic where
  | ld | push | pop | ex
  | alu (op : Alu)
  | inc | dec
  | shift (op : Shift)
  | bit (op : BitOp)
  | jp | jr | djnz | call | ret | rst | im
  /-- IN -/
  | input
  /-- OUT -/
  | output
  | implied (op : Implied)
  | nextreg | mul | test
deriving DecidableEq, Repr

-- --------
-- Spelling
-- --------

def Alu.spelling : Alu → String
  | .add => "add" | .adc => "adc" | .sub => "sub" | .sbc => "sbc"
  | .and => "and" | .xor => "xor" | .or => "or" | .cp => "cp"

def Shift.spelling : Shift → String
  | .rlc => "rlc" | .rrc => "rrc" | .rl => "rl" | .rr => "rr"
  | .sla => "sla" | .sra => "sra" | .sll => "sll" | .srl => "srl"

def BitOp.spelling : BitOp → String
  | .bit => "bit" | .res => "res" | .set => "set"

def Implied.spelling : Implied → String
  | .nop => "nop" | .halt => "halt" | .di => "di" | .ei => "ei" | .exx => "exx" | .daa => "daa"
  | .cpl => "cpl" | .ccf => "ccf" | .scf => "scf" | .rlca => "rlca" | .rrca => "rrca" | .rla => "rla"
  | .rra => "rra" | .neg => "neg" | .reti => "reti" | .retn => "retn" | .rld => "rld" | .rrd => "rrd"
  | .ldi => "ldi" | .ldir => "ldir" | .ldd => "ldd" | .lddr => "lddr" | .cpi => "cpi"
  | .cpir => "cpir" | .cpd => "cpd" | .cpdr => "cpdr" | .ini => "ini" | .inir => "inir"
  | .ind => "ind" | .indr => "indr" | .outi => "outi" | .otir => "otir" | .outd => "outd"
  | .otdr => "otdr" | .swapnib => "swapnib" | .mirrorBits => "mirror" | .pixeldn => "pixeldn"
  | .pixelad => "pixelad" | .setae => "setae" | .outinb => "outinb" | .ldix => "ldix"
  | .ldws => "ldws" | .lddx => "lddx" | .ldirx => "ldirx" | .ldpirx => "ldpirx" | .lddrx => "lddrx"

/-- A mnemonic in lower case. -/
def Mnemonic.spelling : Mnemonic → String
  | .ld => "ld" | .push => "push" | .pop => "pop" | .ex => "ex"
  | .alu op => op.spelling
  | .inc => "inc" | .dec => "dec"
  | .shift op => op.spelling
  | .bit op => op.spelling
  | .jp => "jp" | .jr => "jr" | .djnz => "djnz" | .call => "call" | .ret => "ret" | .rst => "rst"
  | .im => "im" | .input => "in" | .output => "out"
  | .implied op => op.spelling
  | .nextreg => "nextreg" | .mul => "mul" | .test => "test"

-- --------
-- Vocabulary
-- --------

/-- All accumulator operations. -/
def Alu.all : List Alu := [.add, .adc, .sub, .sbc, .and, .xor, .or, .cp]

theorem Alu.mem_all (op : Alu) : op ∈ Alu.all := by cases op <;> decide

/-- All shifts. -/
def Shift.all : List Shift := [.rlc, .rrc, .rl, .rr, .sla, .sra, .sll, .srl]

theorem Shift.mem_all (op : Shift) : op ∈ Shift.all := by cases op <;> decide

/-- All bit operations. -/
def BitOp.all : List BitOp := [.bit, .res, .set]

theorem BitOp.mem_all (op : BitOp) : op ∈ BitOp.all := by cases op <;> decide

/-- All instructions without operands. -/
def Implied.all : List Implied :=
  [.nop, .halt, .di, .ei, .exx, .daa, .cpl, .ccf, .scf, .rlca, .rrca, .rla, .rra, .neg, .reti, .retn,
   .rld, .rrd, .ldi, .ldir, .ldd, .lddr, .cpi, .cpir, .cpd, .cpdr, .ini, .inir, .ind, .indr, .outi,
   .otir, .outd, .otdr, .swapnib, .mirrorBits, .pixeldn, .pixelad, .setae, .outinb, .ldix, .ldws,
   .lddx, .ldirx, .ldpirx, .lddrx]

theorem Implied.mem_all (op : Implied) : op ∈ Implied.all := by cases op <;> decide

namespace Mnemonic

/-- All mnemonics. -/
def all : List Mnemonic :=
  [.ld, .push, .pop, .ex] ++ Alu.all.map .alu ++ [.inc, .dec] ++ Shift.all.map .shift ++
    BitOp.all.map .bit ++ [.jp, .jr, .djnz, .call, .ret, .rst, .im, .input, .output] ++
    Implied.all.map .implied ++ [.nextreg, .mul, .test]

theorem mem_all (m : Mnemonic) : m ∈ all := by
  cases m <;> simp [all, Alu.mem_all, Shift.mem_all, BitOp.mem_all, Implied.mem_all]

/-- The mnemonic of a spelling in lower case. -/
def ofSpelling? (name : String) : Option Mnemonic := all.find? (·.spelling == name)

theorem ofSpelling?_spelling_of_mem : ∀ m ∈ all, ofSpelling? m.spelling = some m := by
  decide +kernel

/-- A mnemonic is found by its spelling. -/
theorem ofSpelling?_spelling (m : Mnemonic) : ofSpelling? m.spelling = some m :=
  ofSpelling?_spelling_of_mem m (mem_all m)

/-- The mnemonic a name stands for. No mnemonic of this family carries an operand. -/
def ofName? (name : String) : Option (Mnemonic × Option Nat) :=
  (ofSpelling? (Text.lower name)).map (·, none)

end Mnemonic

end CrossAsm.Z80
