import CrossAsm.Proofs.Word
import CrossAsm.Z80.Mnemonic
import CrossAsm.Z80.Register

/-!
# CrossAsm — the Z80 at work

What the processor makes of the instructions that loads and shifts of 16 bits are expanded to. The bytes are
taken apart by the fields of the opcodes, and no encoding of the family is used for it.

* `State` — the registers, the flags and the memory. What none of the instructions reads or changes is left
  out: the alternate registers, I and R.
* `Op` — the instructions, and `State.exec` what each of them does.
* `ops` — the instructions in a sequence of bytes.
* `run` — the state behind a sequence of bytes.
-/

namespace CrossAsm.Z80

-- --------
-- The processor
-- --------

/-- The flags, from the highest bit of F down. -/
structure Flags where
  sign : Bool
  zero : Bool
  bit5 : Bool
  halfCarry : Bool
  bit3 : Bool
  parity : Bool
  subtract : Bool
  carry : Bool
deriving DecidableEq

/-- The processor and its memory. -/
@[ext]
structure State where
  (a b c d e h l : BitVec 8)
  flags : Flags
  (ix iy sp : BitVec 16)
  memory : BitVec 16 → BitVec 8

/-- Where a byte is taken from or put. -/
inductive Slot where
  /-- A register, or the byte at `(HL)`. -/
  | register (r : Reg)
  | indexed (x : Index) (displacement : BitVec 16)
deriving DecidableEq

/-- Where a word is taken from or put. -/
inductive Place where
  | pair (p : Pair)
  | index (x : Index)
  /-- Two bytes of the memory, low byte first. -/
  | memory (address : BitVec 16)
deriving DecidableEq

namespace State

/-- The memory with a byte changed. -/
def poke (m : State) (address : BitVec 16) (byte : BitVec 8) : State :=
  { m with memory := fun other => if other = address then byte else m.memory other }

def pair (m : State) : Pair → BitVec 16
  | .bc => m.b ++ m.c
  | .de => m.d ++ m.e
  | .hl => m.h ++ m.l
  | _ => m.sp

def setPair (m : State) (p : Pair) (w : BitVec 16) : State :=
  match p with
  | .bc => { m with b := highByte w, c := lowByte w }
  | .de => { m with d := highByte w, e := lowByte w }
  | .hl => { m with h := highByte w, l := lowByte w }
  | _ => { m with sp := w }

def index (m : State) : Index → BitVec 16
  | .ix => m.ix
  | .iy => m.iy

def setIndex (m : State) (x : Index) (w : BitVec 16) : State :=
  match x with
  | .ix => { m with ix := w }
  | .iy => { m with iy := w }

/-- An 8-bit register, by its number. -/
def register (m : State) : Reg → BitVec 8
  | .b => m.b
  | .c => m.c
  | .d => m.d
  | .e => m.e
  | .h => m.h
  | .l => m.l
  | .m => m.memory (m.pair .hl)
  | _ => m.a

def setRegister (m : State) (r : Reg) (byte : BitVec 8) : State :=
  match r with
  | .b => { m with b := byte }
  | .c => { m with c := byte }
  | .d => { m with d := byte }
  | .e => { m with e := byte }
  | .h => { m with h := byte }
  | .l => { m with l := byte }
  | .m => m.poke (m.pair .hl) byte
  | _ => { m with a := byte }

/-- The byte in a slot. -/
def byte (m : State) : Slot → BitVec 8
  | .register r => m.register r
  | .indexed x d => m.memory (m.index x + d)

def setByte (m : State) (slot : Slot) (byte : BitVec 8) : State :=
  match slot with
  | .register r => m.setRegister r byte
  | .indexed x d => m.poke (m.index x + d) byte

/-- The word in a place. -/
def word (m : State) : Place → BitVec 16
  | .pair p => m.pair p
  | .index x => m.index x
  | .memory address => m.memory (address + 1) ++ m.memory address

def setWord (m : State) (place : Place) (w : BitVec 16) : State :=
  match place with
  | .pair p => m.setPair p w
  | .index x => m.setIndex x w
  | .memory address => (m.poke address (lowByte w)).poke (address + 1) (highByte w)

theorem pair_setPair (m : State) (p : Pair) (w : BitVec 16) : (m.setPair p w).pair p = w := by
  unfold setPair pair
  split <;> simp

/-- A place holds the word that was put there. -/
@[simp] theorem word_setWord (m : State) (place : Place) (w : BitVec 16) :
    (m.setWord place w).word place = w := by
  cases place with
  | pair p => exact pair_setPair m p w
  | index x => cases x <;> rfl
  | memory address => simp [setWord, word, poke]

end State

-- --------
-- Shifts
-- --------

namespace Shift

variable {n : Nat}

/-- The bit that a shift moves in. -/
def fill (op : Shift) (x : BitVec n) (carry : Bool) : Bool :=
  match op with
  | .rlc | .sra => x.msb
  | .rrc => x.getLsbD 0
  | .rl | .rr => carry
  | .sla | .srl => false
  | .sll => true

/-- One bit to the left. The highest bit goes to the carry. -/
def left (x : BitVec n) (bit : Bool) : BitVec n × Bool := (x.shiftConcat bit, x.msb)

/-- One bit to the right. The lowest bit goes to the carry. -/
def right (x : BitVec n) (bit : Bool) : BitVec n × Bool :=
  ((BitVec.cons bit x).extractLsb' 1 n, x.getLsbD 0)

/-- A shift of any width, with the carry before and behind it. -/
def apply (op : Shift) (x : BitVec n) (carry : Bool) : BitVec n × Bool :=
  match op with
  | .rlc | .rl | .sla | .sll => left x (op.fill x carry)
  | .rrc | .rr | .sra | .srl => right x (op.fill x carry)

/-- To the left, the carry of the low byte moves into the high one. -/
theorem left_append (high low : BitVec 8) (bit : Bool) :
    left (n := 16) (high ++ low) bit =
      ((left high (left low bit).2).1 ++ (left low bit).1, (left high (left low bit).2).2) := by
  refine Prod.ext ?_ ?_
  · apply BitVec.eq_of_getLsbD_eq
    intro j hj
    simp only [left, BitVec.getLsbD_append, BitVec.getLsbD_shiftConcat, BitVec.msb_eq_getLsbD_last]
    rcases Nat.lt_trichotomy j 8 with hLow | rfl | hHigh
    · grind
    · rfl
    · grind
  · show (high ++ low).msb = high.msb
    rw [BitVec.msb_append, if_neg (by decide)]

/-- To the right, the carry of the high byte moves into the low one. -/
theorem right_append (high low : BitVec 8) (bit : Bool) :
    right (n := 16) (high ++ low) bit =
      ((right high bit).1 ++ (right low (right high bit).2).1, (right low (right high bit).2).2) := by
  refine Prod.ext ?_ ?_
  · apply BitVec.eq_of_getLsbD_eq
    intro j hj
    simp only [right, BitVec.getLsbD_append, BitVec.getLsbD_extractLsb', BitVec.getLsbD_cons]
    grind
  · exact BitVec.getLsbD_append ..

end Shift

/-- The flags behind a shift. The parity flag is set if the number of ones is even. -/
def shiftFlags (result : BitVec 8) (carry : Bool) : Flags where
  sign := result.msb
  zero := result = 0
  bit5 := result.getLsbD 5
  halfCarry := false
  bit3 := result.getLsbD 3
  parity := (List.range 8).countP result.getLsbD % 2 = 0
  subtract := false
  carry := carry

-- --------
-- Instructions
-- --------

/-- The instructions of loads and shifts. -/
inductive Op where
  | load (target source : Slot)
  | inc (p : Pair)
  | dec (p : Pair)
  | push (source : Place)
  | pop (target : Place)
  | shift (op : Shift) (r : Reg)
deriving DecidableEq

/-- What an instruction does. -/
def State.exec (m : State) : Op → State
  | .load target source => m.setByte target (m.byte source)
  | .inc p => m.setPair p (m.pair p + 1)
  | .dec p => m.setPair p (m.pair p - 1)
  | .push source => { m.setWord (.memory (m.sp - 2)) (m.word source) with sp := m.sp - 2 }
  | .pop target => { m with sp := m.sp + 2 }.setWord target (m.word (.memory m.sp))
  | .shift op r =>
    let (result, carry) := op.apply (m.register r) m.flags.carry
    { m.setRegister r result with flags := shiftFlags result carry }

/-- PUSH or POP by the part of the opcode that does not select a register. -/
def stackOp? (field : UInt8) (place : Place) : Option Op :=
  if field = 0xc5 then some (.push place) else if field = 0xc1 then some (.pop place) else none

/-- The instructions of one byte. -/
def op1? (byte : UInt8) : Option Op :=
  let p : Pair := ⟨byte >>> 4 &&& 3⟩
  if byte = 0x76 then none
  else if byte &&& 0xc0 = 0x40 then
    some (.load (.register ⟨byte >>> 3 &&& 7⟩) (.register ⟨byte &&& 7⟩))
  else if byte &&& 0xcf = 0x03 then some (.inc p)
  else if byte &&& 0xcf = 0x0b then some (.dec p)
  else if p = .sp then none
  else stackOp? (byte &&& 0xcf) (.pair p)

/-- The index register that a byte puts in the place of HL. -/
def Index.ofLead? (byte : UInt8) : Option Index :=
  if byte = 0xdd then some .ix else if byte = 0xfd then some .iy else none

/-- The instructions of two bytes. -/
def op2? (lead byte : UInt8) : Option Op :=
  if lead = 0xcb then
    if byte &&& 0xc0 = 0 then (Shift.all[(byte >>> 3).toNat]?).map (.shift · ⟨byte &&& 7⟩) else none
  else if byte >>> 4 &&& 3 = 2 then
    (Index.ofLead? lead).bind fun x => stackOp? (byte &&& 0xcf) (.index x)
  else none

/-- The instructions of three bytes; the last one is a displacement. -/
def op3? (lead byte displacement : UInt8) : Option Op :=
  (Index.ofLead? lead).bind fun x =>
    let slot : Slot := .indexed x (extended displacement)
    if byte = 0x76 then none
    else if byte &&& 0xc7 = 0x46 then some (.load (.register ⟨byte >>> 3 &&& 7⟩) slot)
    else if byte &&& 0xf8 = 0x70 then some (.load slot (.register ⟨byte &&& 7⟩))
    else none

/-- The instructions in a sequence of bytes. -/
def ops : List UInt8 → Option (List Op)
  | [] => some []
  | byte :: rest =>
    match op1? byte with
    | some op => (ops rest).map (op :: ·)
    | none =>
      match rest with
      | [] => none
      | second :: rest =>
        match op2? byte second with
        | some op => (ops rest).map (op :: ·)
        | none =>
          match rest with
          | [] => none
          | third :: rest => (op3? byte second third).bind fun op => (ops rest).map (op :: ·)

/-- The state behind a sequence of bytes. -/
def run (code : List UInt8) (m : State) : Option State := (ops code).map fun list => list.foldl State.exec m

end CrossAsm.Z80
