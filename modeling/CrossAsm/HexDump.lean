import CrossAsm.Text.Hex

/-!
# CrossAsm — hex dumps

Bytes as a hex editor shows them: sixteen to a line, each behind a blank. One byte can be put into
brackets, which takes the place of its blank.
-/

namespace CrossAsm.HexDump

/-- Bytes on one line. -/
def perLine : Nat := 16

/-- One byte of the dump. -/
def cell (marked : Bool) (b : UInt8) : String :=
  if marked then "[" ++ Text.hex 2 b.toNat ++ "]" else " " ++ Text.hex 2 b.toNat

/-- The dump of bytes that start at index `i` of the whole. A full line, and the last one, ends with
a line feed. -/
def lines (mark : Option Nat) : Nat → List UInt8 → String
  | i, [] => if i % perLine = 0 then "" else "\n"
  | i, b :: bs =>
    cell (mark == some i) b ++ (if i % perLine = perLine - 1 then "\n" else "") ++
      lines mark (i + 1) bs

/-- The dump of bytes, with the byte at index `mark` in brackets. -/
def render (bytes : List UInt8) (mark : Option Nat) : String := lines mark 0 bytes

end CrossAsm.HexDump
