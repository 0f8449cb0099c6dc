import CrossAsm.Text.Case

/-!
# CrossAsm — registers and conditions of the Z80 family

Each is a number that goes into opcodes, and the ones that exist have names. The byte at `(HL)` counts as
an 8-bit register there. A number that belongs to no register is as good as any other in an opcode: its
bits are merged in as they are.
-/

namespace CrossAsm.Z80

-- --------
-- 8-bit registers
-- --------

/-- An 8-bit register. -/
structure Reg where
  /-- The number of the register in opcodes. -/
  code : UInt8
deriving DecidableEq, Repr

namespace Reg

@[match_pattern] abbrev b : Reg := ⟨0⟩
@[match_pattern] abbrev c : Reg := ⟨1⟩
@[match_pattern] abbrev d : Reg := ⟨2⟩
@[match_pattern] abbrev e : Reg := ⟨3⟩
@[match_pattern] abbrev h : Reg := ⟨4⟩
@[match_pattern] abbrev l : Reg := ⟨5⟩
/-- The byte at `(HL)`. -/
@[match_pattern] abbrev m : Reg := ⟨6⟩
@[match_pattern] abbrev a : Reg := ⟨7⟩

end Reg

-- --------
-- 16-bit registers
-- --------

/-- A 16-bit register. -/
structure Pair where
  /-- The number of the pair in opcodes. -/
  code : UInt8
deriving DecidableEq, Repr

namespace Pair

@[match_pattern] abbrev bc : Pair := ⟨0⟩
@[match_pattern] abbrev de : Pair := ⟨1⟩
@[match_pattern] abbrev hl : Pair := ⟨2⟩
@[match_pattern] abbrev sp : Pair := ⟨3⟩

/-- The high and the low half of a pair, which are numbered one after the other. SP has none: whoever
takes a pair apart sets SP aside first. -/
def halves (p : Pair) : Reg × Reg := (⟨p.code * 2⟩, ⟨p.code * 2 + 1⟩)

@[simp] theorem halves_bc : halves .bc = (.b, .c) := rfl

@[simp] theorem halves_de : halves .de = (.d, .e) := rfl

@[simp] theorem halves_hl : halves .hl = (.h, .l) := rfl

/-- Whether a pair is one of BC, DE and HL. -/
def isGeneral (p : Pair) : Bool := p.code < 3

/-- Whether a pair is one of BC and DE, which can change while `(HL)` stays the same byte. -/
def avoidsHl (p : Pair) : Bool := p.code < 2

end Pair

-- --------
-- Index registers and special registers
-- --------

/-- The index registers. -/
inductive Index where
  | ix | iy
deriving DecidableEq, Repr

namespace Index

/-- The number of an index register. -/
def code : Index → UInt8
  | .ix => 0 | .iy => 1

/-- The index register with a number: every number but zero stands for IY. -/
def ofCode (n : UInt8) : Index := if n = 0 then .ix else .iy

@[simp] theorem ofCode_code (x : Index) : ofCode x.code = x := by cases x <;> rfl

/-- The byte in front of an opcode that makes HL mean the index register. -/
def lead : Index → UInt8
  | .ix => 0xdd | .iy => 0xfd

end Index

/-- The interrupt and refresh registers. -/
structure SpecialReg where
  /-- The number of the register in opcodes. -/
  code : UInt8
deriving DecidableEq, Repr

namespace SpecialReg

abbrev i : SpecialReg := ⟨0⟩
abbrev r : SpecialReg := ⟨1⟩

end SpecialReg

-- --------
-- Conditions
-- --------

/-- A condition. -/
structure Condition where
  /-- The number of the condition in opcodes. -/
  code : UInt8
deriving DecidableEq, Repr

namespace Condition

abbrev nz : Condition := ⟨0⟩
abbrev z : Condition := ⟨1⟩
abbrev nc : Condition := ⟨2⟩
abbrev c : Condition := ⟨3⟩
abbrev po : Condition := ⟨4⟩
abbrev pe : Condition := ⟨5⟩
abbrev p : Condition := ⟨6⟩
abbrev m : Condition := ⟨7⟩

/-- The condition that holds exactly if this one does not. The two differ in the lowest bit. -/
def inverse (cc : Condition) : Condition := ⟨cc.code ^^^ 1⟩

@[simp] theorem inverse_inverse (cc : Condition) : cc.inverse.inverse = cc := by
  rw [inverse, inverse, UInt8.xor_assoc, UInt8.xor_self, UInt8.xor_zero]

/-- Whether JR takes the condition: it has room for the first four. -/
def isShort (cc : Condition) : Bool := cc.code < 4

end Condition

-- --------
-- Names
-- --------

/-- The names of the 8-bit registers. -/
def Reg.names : List (String × Reg) :=
  [("b", .b), ("c", .c), ("d", .d), ("e", .e), ("h", .h), ("l", .l), ("a", .a)]

/-- The names of the pairs. -/
def Pair.names : List (String × Pair) := [("bc", .bc), ("de", .de), ("hl", .hl), ("sp", .sp)]

/-- The names of the index registers. -/
def Index.names : List (String × Index) := [("ix", .ix), ("iy", .iy)]

/-- The names of the special registers. -/
def SpecialReg.names : List (String × SpecialReg) := [("i", .i), ("r", .r)]

/-- The names of the conditions; each has two. -/
def Condition.names : List (String × Condition) :=
  [("nz", .nz), ("z", .z), ("nc", .nc), ("c", .c), ("po", .po), ("pe", .pe), ("p", .p), ("m", .m),
   ("ne", .nz), ("eq", .z), ("cc", .nc), ("cs", .c), ("vc", .po), ("vs", .pe), ("pl", .p), ("mi", .m)]

/-- What a name in any letter case stands for. -/
def named? {α : Type} (names : List (String × α)) (name : String) : Option α :=
  (names.find? fun entry => Text.sameWord name entry.1).map Prod.snd

/-- Whether a name is a register or a condition in any letter case. -/
def isReserved (name : String) : Bool :=
  (named? Reg.names name).isSome || (named? Pair.names name).isSome ||
    (named? Index.names name).isSome || (named? SpecialReg.names name).isSome ||
    (named? Condition.names name).isSome || Text.sameWord name "af" || Text.sameWord name "af'"

end CrossAsm.Z80
