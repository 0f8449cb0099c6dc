import CrossAsm.Proofs.Mos65.Control

/-!
# CrossAsm — the 45GS02 at work

What the processor makes of the instructions that 32-bit loads are expanded to. The bytes are taken apart by their
opcodes, and no encoding of the family is used for it.

* `State` — the registers that hold a 32-bit value, and the flags.
* `Op` — loads of a byte and transfers from A, and `State.exec` what they do.
* `ops` — the instructions in a sequence of bytes.
* `run` — the state behind a sequence of bytes.
-/

namespace CrossAsm.Mos65

-- --------
-- The processor
-- --------

/-- The registers that hold a 32-bit value, from its lowest byte to its highest one. -/
inductive Register where
  | a
  | x
  | y
  | z
deriving DecidableEq

/-- The registers and the flags. -/
structure State where
  (a x y z : UInt8)
  flags : Flags

/-- The flags after a byte was put into a register. -/
def Flags.after (f : Flags) (byte : UInt8) : Flags :=
  { f with negative := decide (0x80 ≤ byte), zero := decide (byte = 0) }

/-- An instruction. -/
inductive Op where
  /-- LDA, LDX, LDY and LDZ with an immediate. -/
  | load (r : Register) (byte : UInt8)
  /-- TAX, TAY and TAZ. -/
  | transfer (r : Register)
deriving DecidableEq

namespace State

/-- The state in which a byte was put into a register. -/
def set (m : State) (r : Register) (byte : UInt8) : State :=
  match r with
  | .a => { m with a := byte, flags := m.flags.after byte }
  | .x => { m with x := byte, flags := m.flags.after byte }
  | .y => { m with y := byte, flags := m.flags.after byte }
  | .z => { m with z := byte, flags := m.flags.after byte }

def exec (m : State) : Op → State
  | .load r byte => m.set r byte
  | .transfer r => m.set r m.a

end State

-- --------
-- Code
-- --------

/-- The register that an opcode loads with the byte behind it. -/
def loadTarget? : UInt8 → Option Register
  | 0xa9 => some .a
  | 0xa2 => some .x
  | 0xa0 => some .y
  | 0xa3 => some .z
  | _ => none

/-- The register that an opcode copies A to. -/
def transferTarget? : UInt8 → Option Register
  | 0xaa => some .x
  | 0xa8 => some .y
  | 0x4b => some .z
  | _ => none

/-- The instructions in a sequence of bytes. -/
def ops : List UInt8 → Option (List Op)
  | [] => some []
  | [opcode] => (transferTarget? opcode).map fun r => [.transfer r]
  | opcode :: byte :: rest =>
    match transferTarget? opcode with
    | some r => (ops (byte :: rest)).map (.transfer r :: ·)
    | none => (loadTarget? opcode).bind fun r => (ops rest).map (.load r byte :: ·)

/-- What the bytes do, one instruction after the other. -/
def run (code : List UInt8) (m : State) : Option State := (ops code).map fun list => list.foldl State.exec m

theorem ops_transfer {opcode : UInt8} {r : Register} (h : transferTarget? opcode = some r) (rest : List UInt8) :
    ops (opcode :: rest) = (ops rest).map (.transfer r :: ·) := by
  cases rest with
  | nil => simp [ops, h]
  | cons byte rest => simp [ops, h]

theorem ops_load {opcode : UInt8} {r : Register} (h : loadTarget? opcode = some r)
    (hOther : transferTarget? opcode = none) (byte : UInt8) (rest : List UInt8) :
    ops (opcode :: byte :: rest) = (ops rest).map (.load r byte :: ·) := by
  simp [ops, h, hOther]

theorem run_of_ops {code : List UInt8} {list : List Op} (h : ops code = some list) (m : State) :
    run code m = some (list.foldl State.exec m) := by
  rw [run, h]
  rfl

end CrossAsm.Mos65
