import CrossAsm.Value

/-!
# CrossAsm — numbers written in a radix

Digits are read from left to right into a value that must not exceed the largest signed 64-bit
number. The first digit that is not one of the radix, or at which the number grows too large, decides
the fault.
-/

namespace CrossAsm.Text

/-- Why a text is not a number. -/
inductive NumberFault where
  | noDigits
  | invalidDigit
  | tooLarge
  | tooSmall
deriving DecidableEq, Repr

namespace NumberFault

/-- The wording of a fault. -/
def message : NumberFault → String
  | .noDigits => "cannot parse integer from empty string"
  | .invalidDigit => "invalid digit found in string"
  | .tooLarge => "number too large to fit in target type"
  | .tooSmall => "number too small to fit in target type"

end NumberFault

/-- The value of a character as a digit: `0` to `9`, then the letters of either case from ten on. -/
def digitOf? (c : Char) : Option Nat :=
  if c.isDigit then some (c.toNat - '0'.toNat)
  else if 'a' ≤ c ∧ c ≤ 'z' then some (c.toNat - 'a'.toNat + 10)
  else if 'A' ≤ c ∧ c ≤ 'Z' then some (c.toNat - 'A'.toNat + 10)
  else none

/-- Whether a character is a digit in the given radix. -/
def isDigitIn (radix : Nat) (c : Char) : Bool :=
  match digitOf? c with
  | some d => decide (d < radix)
  | none => false

/-- Reads digits behind a number already read. `limit` is the largest magnitude allowed. -/
def readDigits (radix limit : Nat) (overflow : NumberFault) : Nat → List Char → Except NumberFault Nat
  | n, [] => .ok n
  | n, c :: cs =>
    match digitOf? c with
    | none => .error .invalidDigit
    | some d =>
      if radix ≤ d then .error .invalidDigit
      else if limit < n * radix + d then .error overflow
      else readDigits radix limit overflow (n * radix + d) cs

/-- The largest value a number literal can have. -/
def largest : Nat := 0x7fffffffffffffff

/-- The value of a text of digits without a sign. -/
def number (radix : Nat) (digits : List Char) : Except NumberFault Value :=
  match digits with
  | [] => .error .noDigits
  | cs => (readDigits radix largest .tooLarge 0 cs).map Value.ofNat

/-- The value of a text of digits that may start with a sign. A sign alone is no number. -/
def signedNumber (radix : Nat) (text : List Char) : Except NumberFault Value :=
  match text with
  | ['+'] | ['-'] => .error .invalidDigit
  | '+' :: cs => number radix cs
  | '-' :: cs => (readDigits radix (largest + 1) .tooSmall 0 cs).map fun n => -Value.ofNat n
  | cs => number radix cs

end CrossAsm.Text
