import CrossAsm.Flag
import CrossAsm.Text.Case

/-!
# CrossAsm — features, CPUs and operand forms of the Z80 family

The Z80 and its successor, the Z80N.
-/

namespace CrossAsm.Z80

/-- Parts of the instruction set that a CPU may have. -/
inductive Feature where
  /-- The documented Z80. -/
  | z80
  /-- The additions of the Z80N. -/
  | z80n
deriving DecidableEq, Repr

instance : Flag Feature where
  all := [.z80, .z80n]
  label
    | .z80 => "z80"
    | .z80n => "z80n"
  mem_all f := by cases f <;> simp

/-- A set of features. -/
abbrev Features := FlagSet Feature

/-- The features of a CPU, by its name in any letter case. -/
def cpu? (name : String) : Option Features :=
  match Text.lower name with
  | "z80" => some {.z80}
  | "z80n" => some {.z80, .z80n}
  | _ => none

/-- The operand forms. -/
inductive Mode where
  | none
  /-- `B C D E H L A` -/
  | register
  /-- `BC DE HL SP` -/
  | pair
  /-- `AF` -/
  | accumulatorFlags
  /-- `AF'` -/
  | alternateFlags
  /-- `IX IY` -/
  | index
  /-- `I R` -/
  | special
  /-- `NZ Z NC C PO PE P M` -/
  | condition
  /-- `n` or `nn` -/
  | immediate
  /-- `(BC) (DE) (HL) (SP)` -/
  | registerIndirect
  /-- `(IX+d) (IY+d)` -/
  | indexed
  /-- `(C)` -/
  | ioPortC
  /-- `(nn)` -/
  | memory
  /-- `(n)`, an I/O address -/
  | ioPort
  /-- `nn` as the target of a jump or call -/
  | address
  /-- `e`, the target of a relative jump -/
  | relative
deriving DecidableEq, Repr

instance : Flag Mode where
  all :=
    [.none, .register, .pair, .accumulatorFlags, .alternateFlags, .index, .special, .condition,
     .immediate, .registerIndirect, .indexed, .ioPortC, .memory, .ioPort, .address, .relative]
  label
    | .none => "none"
    | .register => "register"
    | .pair => "pair"
    | .accumulatorFlags => "accumulator flags"
    | .alternateFlags => "alternate flags"
    | .index => "index"
    | .special => "special"
    | .condition => "condition"
    | .immediate => "immediate"
    | .registerIndirect => "register indirect"
    | .indexed => "indexed"
    | .ioPortC => "port c"
    | .memory => "memory"
    | .ioPort => "port"
    | .address => "address"
    | .relative => "relative"
  mem_all m := by cases m <;> simp

/-- A set of operand forms. -/
abbrev Modes := FlagSet Mode

end CrossAsm.Z80
