import CrossAsm.Instruction
import CrossAsm.Z80.Mnemonic
import CrossAsm.Z80.Register
import CrossAsm.Z80.Vocabulary

/-!
# CrossAsm — what Z80 operands select

What an instruction becomes depends on the combination of its operands, so they are first viewed as what
they select: registers and conditions of their kinds instead of bare numbers, and `(HL)` as the register
it is in opcodes.
-/

namespace CrossAsm.Z80

/-- An instruction of this family. -/
abbrev Instr := Instruction Mnemonic Mode

/-- What an operand selects. -/
inductive View where
  | absent
  /-- An 8-bit register, `(HL)` included. -/
  | register (r : Reg)
  | pair (p : Pair)
  | index (x : Index)
  | special (sr : SpecialReg)
  /-- `(BC)`, `(DE)` or `(SP)`. -/
  | indirect (p : Pair)
  | indexed (x : Index) (displacement : Expr)
  | memory (address : Expr)
  | ioPort (address : Expr)
  | ioPortC
  | immediate (e : Expr)
  | address (e : Expr)
  | relative (e : Expr)
  | condition (cc : Condition)
  | accumulatorFlags
  | alternateFlags
deriving DecidableEq, Repr

/-- What an operand selects. -/
def view (o : Operand Mode) : View :=
  match o.mode with
  | .none => .absent
  | .register => .register ⟨o.registerCode⟩
  | .pair => .pair ⟨o.registerCode⟩
  | .index => .index (.ofCode o.registerCode)
  | .special => .special ⟨o.registerCode⟩
  | .registerIndirect =>
    if o.registerCode = Pair.hl.code then .register .m else .indirect ⟨o.registerCode⟩
  | .indexed => .indexed (.ofCode o.registerCode) (o.value 0)
  | .memory => .memory (o.value 0)
  | .ioPort => .ioPort (o.value 0)
  | .ioPortC => .ioPortC
  | .immediate => .immediate (o.value 0)
  | .address => .address (o.value 0)
  | .relative => .relative (o.value 0)
  | .condition => .condition ⟨o.registerCode⟩
  | .accumulatorFlags => .accumulatorFlags
  | .alternateFlags => .alternateFlags

/-- The condition and the target of a jump or call; the condition may be left out. -/
def conditional (i : Instr) : Option Condition × Operand Mode :=
  match view i.first with
  | .condition cc => if i.second.mode = .none then (none, i.first) else (some cc, i.second)
  | _ => (none, i.first)

end CrossAsm.Z80
