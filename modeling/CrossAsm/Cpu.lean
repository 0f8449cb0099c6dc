import CrossAsm.Assembler
import CrossAsm.Mos65
import CrossAsm.Z80

/-!
# CrossAsm — the CPUs to choose from
-/

namespace CrossAsm

/-- The CPUs that programs can be assembled for. -/
inductive Cpu where
  | mos6502 | mos65c02 | mos65ce02 | mos4510 | mos45gs02 | z80 | z80n
deriving DecidableEq, Repr

namespace Cpu

/-- All CPUs. -/
def all : List Cpu := [.mos6502, .mos65c02, .mos65ce02, .mos4510, .mos45gs02, .z80, .z80n]

/-- The name of a CPU. -/
def name : Cpu → String
  | .mos6502 => "6502"
  | .mos65c02 => "65c02"
  | .mos65ce02 => "65ce02"
  | .mos4510 => "4510"
  | .mos45gs02 => "45gs02"
  | .z80 => "z80"
  | .z80n => "z80n"

/-- The CPU with the given name. -/
def ofName? (name : String) : Option Cpu := all.find? (·.name == name)

/-- Assembles a source text with the features of the CPU. -/
def assemble (cpu : Cpu) (synthesis : Bool) (policy : Policy) (source : String) : Assembled :=
  match cpu with
  | .z80 | .z80n =>
    let features := (Z80.cpu? cpu.name).getD Z80.family.defaultFeatures
    Z80.family.assemble { features, synthesis } policy source
  | _ =>
    let features := (Mos65.cpu? cpu.name).getD Mos65.family.defaultFeatures
    Mos65.family.assemble { features, synthesis } policy source

@[simp] theorem ofName?_name (cpu : Cpu) : ofName? cpu.name = some cpu := by cases cpu <;> rfl

end Cpu

end CrossAsm
