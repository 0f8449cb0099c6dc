import CrossAsm.Value

/-!
# CrossAsm — operators of assembly-time expressions

All operators work on wrapping 64-bit values. Division and remainder by zero have no result; shift
counts outside `0` to `63` shift everything out.
-/

namespace CrossAsm

-- --------
-- Unary operators
-- --------

/-- The operators in front of one operand. -/
inductive UnaryOp where
  | negate
  | complement
  | lowByte
  | highByte
deriving DecidableEq, Repr

namespace UnaryOp

/-- The result of the operator. -/
def apply : UnaryOp → Value → Value
  | .negate, v => -v
  | .complement, v => ~~~v
  | .lowByte, v => v &&& 0xff
  | .highByte, v => (v >>> 8) &&& 0xff

/-- The operator as it is written. -/
def symbol : UnaryOp → String
  | .negate => "-"
  | .complement => "~"
  | .lowByte => "<"
  | .highByte => ">"

/-- All unary operators. -/
def all : List UnaryOp := [.negate, .complement, .lowByte, .highByte]

/-- The unary operator that is written in the given way. -/
def ofSymbol? (text : String) : Option UnaryOp := all.find? (·.symbol == text)

end UnaryOp

-- --------
-- Binary operators
-- --------

/-- The operators between two operands. -/
inductive BinaryOp where
  | add
  | subtract
  | multiply
  | divide
  | remainder
  | shiftLeft
  | shiftRight
  | and
  | or
  | xor
deriving DecidableEq, Repr

namespace BinaryOp

/-- A left shift; counts outside `0` to `63` leave nothing. -/
def shiftLeftBy (v count : Value) : Value :=
  if count.within 0 63 then v <<< count else 0

/-- An arithmetic right shift; counts outside `0` to `63` leave the sign. -/
def shiftRightBy (v count : Value) : Value :=
  if count.within 0 63 then v >>> count else if v < 0 then -1 else 0

/-- The result of the operator. Only division and remainder by zero have none; both truncate toward
zero. -/
def apply : BinaryOp → Value → Value → Option Value
  | .add, a, b => some (a + b)
  | .subtract, a, b => some (a - b)
  | .multiply, a, b => some (a * b)
  | .divide, a, b => if b = 0 then none else some (a / b)
  | .remainder, a, b => if b = 0 then none else some (a % b)
  | .shiftLeft, a, b => some (shiftLeftBy a b)
  | .shiftRight, a, b => some (shiftRightBy a b)
  | .and, a, b => some (a &&& b)
  | .or, a, b => some (a ||| b)
  | .xor, a, b => some (a ^^^ b)

/-- Binding strength; an operator of higher precedence binds tighter. All are left-associative. -/
def precedence : BinaryOp → Nat
  | .or => 1
  | .xor => 2
  | .and => 3
  | .shiftLeft | .shiftRight => 4
  | .add | .subtract => 5
  | .multiply | .divide | .remainder => 6

/-- Whether the operator has operands without a result. -/
def isFallible : BinaryOp → Bool
  | .divide | .remainder => true
  | _ => false

/-- The operator as it is written. -/
def symbol : BinaryOp → String
  | .add => "+"
  | .subtract => "-"
  | .multiply => "*"
  | .divide => "/"
  | .remainder => "%"
  | .shiftLeft => "<<"
  | .shiftRight => ">>"
  | .and => "&"
  | .or => "|"
  | .xor => "^"

/-- All binary operators. -/
def all : List BinaryOp :=
  [.add, .subtract, .multiply, .divide, .remainder, .shiftLeft, .shiftRight, .and, .or, .xor]

/-- The binary operator that is written in the given way. -/
def ofSymbol? (text : String) : Option BinaryOp := all.find? (·.symbol == text)

/-- Only a division or remainder by zero has no result. -/
theorem apply_eq_none_iff {op : BinaryOp} {a b : Value} :
    op.apply a b = none ↔ op.isFallible = true ∧ b = 0 := by
  cases op <;> simp [apply, isFallible]

/-- An operator that cannot fail always has a result. -/
theorem apply_isSome_of_not_isFallible {op : BinaryOp} (h : op.isFallible = false) (a b : Value) :
    (op.apply a b).isSome = true := by
  refine Option.isSome_iff_ne_none.mpr fun hNone => ?_
  rw [(apply_eq_none_iff.mp hNone).1] at h
  cases h

end BinaryOp

end CrossAsm
