import CrossAsm.Text.Case

/-!
# CrossAsm — mnemonics of the 65xx family

The mnemonics are grouped by how they are encoded. Conditional branches and jumps share the conditions;
the 32-bit operations of the 45GS02 are named for the 8-bit operation behind their prefix bytes.
-/

namespace CrossAsm.Mos65

/-- Operations of the accumulator with memory. -/
inductive Alu where
  | ora | and | eor | adc | sta | lda | cmp | sbc
deriving DecidableEq, Repr

/-- Operations that read, change and write back a byte. -/
inductive Modify where
  | asl | rol | lsr | ror | dec | inc
deriving DecidableEq, Repr

/-- Instructions whose operands follow no common pattern. -/
inductive Special where
  | ldx | stx | ldy | sty | cpx | cpy | bit | stz | tsb | trb | jmp | jsr | ldz | cpz | phw | asw | row
  | inw | dew | asr | rtn
deriving DecidableEq, Repr

/-- Instructions without operands. -/
inductive Implied where
  | brk | php | clc | plp | sec | rti | pha | cli | rts | pla | sei | dey | txa | tya | txs | tay | tax
  | clv | tsx | iny | dex | cld | inx | nop | sed
  | phy | ply | phx | plx
  | cle | see | tsy | inz | tys | dez | neg | taz | map | tab | tza | tba | phz | plz
deriving DecidableEq, Repr

/-- Conditions of branches. -/
inductive Condition where
  | pl | mi | vc | vs | cc | cs | ne | eq
deriving DecidableEq, Repr

/-- Rockwell bit instructions. -/
inductive BitOp where
  | rmb | smb | bbr | bbs
deriving DecidableEq, Repr

/-- The mnemonics of the family. -/
inductive Mnemonic where
  | alu (op : Alu)
  | modify (op : Modify)
  | special (op : Special)
  | implied (op : Implied)
  /-- Conditional branches. -/
  | branch (c : Condition)
  | bra
  | bsr
  | bit (op : BitOp)
  /-- 32-bit accumulator operations. -/
  | quadAlu (op : Alu)
  /-- 32-bit read-modify-write operations. -/
  | quadModify (op : Modify)
  | bitq
  | asrq
  /-- Conditional jumps of any distance. -/
  | jump (c : Condition)
deriving DecidableEq, Repr

-- --------
-- Spelling
-- --------

def Alu.spelling : Alu → String
  | .ora => "ora" | .and => "and" | .eor => "eor" | .adc => "adc"
  | .sta => "sta" | .lda => "lda" | .cmp => "cmp" | .sbc => "sbc"

def Modify.spelling : Modify → String
  | .asl => "asl" | .rol => "rol" | .lsr => "lsr" | .ror => "ror" | .dec => "dec" | .inc => "inc"

def Special.spelling : Special → String
  | .ldx => "ldx" | .stx => "stx" | .ldy => "ldy" | .sty => "sty" | .cpx => "cpx" | .cpy => "cpy"
  | .bit => "bit" | .stz => "stz" | .tsb => "tsb" | .trb => "trb" | .jmp => "jmp" | .jsr => "jsr"
  | .ldz => "ldz" | .cpz => "cpz" | .phw => "phw" | .asw => "asw" | .row => "row" | .inw => "inw"
  | .dew => "dew" | .asr => "asr" | .rtn => "rtn"

def Implied.spelling : Implied → String
  | .brk => "brk" | .php => "php" | .clc => "clc" | .plp => "plp" | .sec => "sec" | .rti => "rti"
  | .pha => "pha" | .cli => "cli" | .rts => "rts" | .pla => "pla" | .sei => "sei" | .dey => "dey"
  | .txa => "txa" | .tya => "tya" | .txs => "txs" | .tay => "tay" | .tax => "tax" | .clv => "clv"
  | .tsx => "tsx" | .iny => "iny" | .dex => "dex" | .cld => "cld" | .inx => "inx" | .nop => "nop"
  | .sed => "sed" | .phy => "phy" | .ply => "ply" | .phx => "phx" | .plx => "plx" | .cle => "cle"
  | .see => "see" | .tsy => "tsy" | .inz => "inz" | .tys => "tys" | .dez => "dez" | .neg => "neg"
  | .taz => "taz" | .map => "map" | .tab => "tab" | .tza => "tza" | .tba => "tba" | .phz => "phz"
  | .plz => "plz"

def Condition.spelling : Condition → String
  | .pl => "pl" | .mi => "mi" | .vc => "vc" | .vs => "vs"
  | .cc => "cc" | .cs => "cs" | .ne => "ne" | .eq => "eq"

def BitOp.spelling : BitOp → String
  | .rmb => "rmb" | .smb => "smb" | .bbr => "bbr" | .bbs => "bbs"

/-- The 32-bit operation behind which an accumulator operation stands. -/
def Alu.quadSpelling : Alu → String
  | .ora => "orq" | .and => "andq" | .eor => "eorq" | .adc => "adcq"
  | .sta => "stq" | .lda => "ldq" | .cmp => "cmpq" | .sbc => "sbcq"

/-- The 32-bit operation behind which a read-modify-write operation stands. -/
def Modify.quadSpelling : Modify → String
  | .asl => "aslq" | .rol => "rolq" | .lsr => "lsrq" | .ror => "rorq" | .dec => "deq" | .inc => "inq"

namespace Mnemonic

/-- A mnemonic in lower case. -/
def spelling : Mnemonic → String
  | .alu op => op.spelling
  | .modify op => op.spelling
  | .special op => op.spelling
  | .implied op => op.spelling
  | .branch c => "b" ++ c.spelling
  | .bra => "bra"
  | .bsr => "bsr"
  | .bit op => op.spelling
  | .quadAlu op => op.quadSpelling
  | .quadModify op => op.quadSpelling
  | .bitq => "bitq"
  | .asrq => "asrq"
  | .jump c => "j" ++ c.spelling

end Mnemonic

-- --------
-- Vocabulary
-- --------

/-- All accumulator operations. -/
def Alu.all : List Alu := [.ora, .and, .eor, .adc, .sta, .lda, .cmp, .sbc]

theorem Alu.mem_all (op : Alu) : op ∈ Alu.all := by cases op <;> decide

/-- All read-modify-write operations. -/
def Modify.all : List Modify := [.asl, .rol, .lsr, .ror, .dec, .inc]

theorem Modify.mem_all (op : Modify) : op ∈ Modify.all := by cases op <;> decide

/-- All mnemonics with tables of their own. -/
def Special.all : List Special :=
  [.ldx, .stx, .ldy, .sty, .cpx, .cpy, .bit, .stz, .tsb, .trb, .jmp, .jsr, .ldz, .cpz, .phw, .asw,
   .row, .inw, .dew, .asr, .rtn]

theorem Special.mem_all (op : Special) : op ∈ Special.all := by cases op <;> decide

/-- All instructions without operands. -/
def Implied.all : List Implied :=
  [.brk, .php, .clc, .plp, .sec, .rti, .pha, .cli, .rts, .pla, .sei, .dey, .txa, .tya, .txs, .tay,
   .tax, .clv, .tsx, .iny, .dex, .cld, .inx, .nop, .sed, .phy, .ply, .phx, .plx, .cle, .see, .tsy,
   .inz, .tys, .dez, .neg, .taz, .map, .tab, .tza, .tba, .phz, .plz]

theorem Implied.mem_all (op : Implied) : op ∈ Implied.all := by cases op <;> decide

/-- All conditions. -/
def Condition.all : List Condition := [.pl, .mi, .vc, .vs, .cc, .cs, .ne, .eq]

theorem Condition.mem_all (op : Condition) : op ∈ Condition.all := by cases op <;> decide

/-- All bit operations. -/
def BitOp.all : List BitOp := [.rmb, .smb, .bbr, .bbs]

theorem BitOp.mem_all (op : BitOp) : op ∈ BitOp.all := by cases op <;> decide

namespace Mnemonic

/-- All mnemonics. -/
def all : List Mnemonic :=
  Alu.all.map .alu ++ Modify.all.map .modify ++ Special.all.map .special ++
    Implied.all.map .implied ++ Condition.all.map .branch ++ [.bra, .bsr] ++ BitOp.all.map .bit ++
    Alu.all.map .quadAlu ++ Modify.all.map .quadModify ++ [.bitq, .asrq] ++ Condition.all.map .jump

theorem mem_all (m : Mnemonic) : m ∈ all := by
  cases m <;> simp [all, Alu.mem_all, Modify.mem_all, Special.mem_all, Implied.mem_all,
    Condition.mem_all, BitOp.mem_all]

/-- The mnemonic of a spelling in lower case. -/
def ofSpelling? (name : String) : Option Mnemonic := all.find? (·.spelling == name)

theorem ofSpelling?_spelling_of_mem : ∀ m ∈ all, ofSpelling? m.spelling = some m := by
  decide +kernel

/-- A mnemonic is found by its spelling. -/
theorem ofSpelling?_spelling (m : Mnemonic) : ofSpelling? m.spelling = some m :=
  ofSpelling?_spelling_of_mem m (mem_all m)

/-- The digit of a bit number. -/
def bitNumber? (c : Char) : Option Nat :=
  if '0' ≤ c ∧ c ≤ '7' then some (c.toNat - '0'.toNat) else none

/-- The mnemonic a name stands for. A name of three characters and a bit number is a bit instruction
that carries the bit number. -/
def ofName? (name : String) : Option (Mnemonic × Option Nat) :=
  let lowered := Text.lower name
  match lowered.toList with
  | [a, b, c, d] =>
    match bitNumber? d with
    | some n => (BitOp.all.find? (·.spelling == String.ofList [a, b, c])).map (.bit ·, some n)
    | none => (ofSpelling? lowered).map (·, none)
  | _ => (ofSpelling? lowered).map (·, none)

end Mnemonic

namespace Condition

/-- The condition that holds exactly if this one does not. -/
def inverse : Condition → Condition
  | .pl => .mi | .mi => .pl | .vc => .vs | .vs => .vc
  | .cc => .cs | .cs => .cc | .ne => .eq | .eq => .ne

@[simp] theorem inverse_inverse (c : Condition) : c.inverse.inverse = c := by cases c <;> rfl

end Condition

end CrossAsm.Mos65
