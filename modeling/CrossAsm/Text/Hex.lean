import CrossAsm.Value

/-!
# CrossAsm — hexadecimal text

Numbers in diagnostics, expressions and dumps are written with upper-case digits.
-/

namespace CrossAsm.Text

/-- The upper-case hexadecimal digits of `n`, with zeros in front up to `width` digits. -/
def hex (width : Nat) (n : Nat) : String :=
  let digits := (Nat.toDigits 16 n).map Char.toUpper
  String.ofList (List.replicate (width - digits.length) '0' ++ digits)

/-- A value as the hexadecimal text of its 64-bit two's complement pattern. -/
def hexPattern (width : Nat) (v : Value) : String := hex width v.toUInt64.toNat

/-- A value as a dollar sign and hexadecimal digits, with a minus sign in front of its magnitude if
it is negative. -/
def hexSigned (v : Value) : String :=
  if v.toInt < 0 then "-$" ++ hex 1 v.toInt.natAbs else "$" ++ hex 1 v.toInt.natAbs

end CrossAsm.Text
