/-!
# CrossAsm — assembly-time values

Every number the assembler computes with (addresses, operands, symbol values, origins) is a signed
64-bit word, and arithmetic on it wraps around.
-/

namespace CrossAsm

/-- An assembly-time integer: a signed 64-bit word with wrapping arithmetic. -/
abbrev Value := Int64

namespace Value

/-- Whether `v` lies between `low` and `high`, both ends included. -/
def within (v low high : Value) : Bool := decide (low ≤ v) && decide (v ≤ high)

/-- The decimal text of a value. -/
def decimal (v : Value) : String := toString v.toInt

/-- The decimal text with a sign in front, also of zero and of positive values. -/
def signedDecimal (v : Value) : String :=
  if v.toInt < 0 then v.decimal else "+" ++ v.decimal

/-- The value of a count. -/
def ofNat (n : Nat) : Value := Int64.ofNat n

end Value

end CrossAsm
