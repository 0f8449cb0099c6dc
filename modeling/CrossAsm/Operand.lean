import CrossAsm.Expr.Parser
import CrossAsm.Machine

/-!
# CrossAsm — operands

An operand is one addressing mode with what the mode carries. It is recognised in two steps: a family's
grammar matches the text, then an address whose width the source left open is narrowed to the base page
where that is possible. What comes out is a mode that the operand slot allows.
-/

namespace CrossAsm

/-- A resolved operand. -/
structure Operand (Mode : Type) where
  mode : Mode
  /-- What the mode carries: an address, an immediate, a displacement, or a bit number with an address
  and a branch target. -/
  values : List Expr := []
  /-- The number of the register or condition that the mode selects. -/
  register : Option UInt8 := none
  /-- Whether the source forced the width of the address. -/
  forced : Bool := false
  span : Span
deriving DecidableEq, Repr

namespace Operand

variable {Mode : Type}

/-- A mode that carries nothing. -/
def bare (mode : Mode) (span : Span) : Operand Mode := { mode, span }

/-- A mode with one expression. -/
def withValue (mode : Mode) (value : Expr) (span : Span) : Operand Mode :=
  { mode, values := [value], span }

/-- A mode that selects a register. -/
def withRegister (mode : Mode) (register : UInt8) (span : Span) : Operand Mode :=
  { mode, register := some register, span }

/-- The expression with the given index; zero if the operand carries fewer. -/
def value (o : Operand Mode) (index : Nat) : Expr := o.values[index]?.getD (.const 0 o.span)

/-- The number of the selected register; zero if the mode selects none. -/
def registerCode (o : Operand Mode) : UInt8 := o.register.getD 0

end Operand

/-- How wide an immediate operand of an instruction is. -/
inductive ImmediateWidth where
  | byte
  | word
  | doubleWord
deriving DecidableEq, Repr

/-- What one operand slot asks for. -/
structure Request (Mode : Type) where
  allowed : FlagSet Mode
  immediate : ImmediateWidth := .byte
  /-- An operand that the mnemonic itself carries, such as the bit number of `bbr3`. -/
  implied : Option Nat := none

namespace Operand

variable {Mode Feature : Type} [DecidableEq Mode]

/-- Narrows an address whose width is open. `pairs` lists the wide modes with the narrow modes of the
same syntax. A constant in the base page becomes its offset there. Where only the narrow mode is
allowed, a constant outside the page is a problem and an unknown address is made page-relative, to be
checked when the program is linked. -/
def narrow (pairs : List (Mode × Mode)) (machine : Machine Feature) (allowed : FlagSet Mode)
    (o : Operand Mode) : Parser (Operand Mode) :=
  match pairs.find? (·.1 = o.mode), o.values with
  | some (_, narrowMode), address :: others =>
    if narrowMode ∉ allowed then pure o
    else
      match address.value? with
      | some v =>
        if machine.inBasePage v then
          pure { o with mode := narrowMode, values := address.mask 8 :: others }
        else if o.mode ∈ allowed then pure o
        else Parser.problem (.outsideBasePage v machine.baseAddress address.span)
      | none =>
        if o.mode ∈ allowed then pure o
        else pure { o with mode := narrowMode
                           values := address.offsetBy (-machine.baseAddress) :: others }
  | _, _ => pure o

/-- Resolves one operand: what the grammar matches, narrowed unless its width is forced, if its mode
is allowed. -/
def resolve (grammar : Parser (Operand Mode)) (pairs : List (Mode × Mode)) (machine : Machine Feature)
    (allowed : FlagSet Mode) : Parser (Operand Mode) := do
  let matched ← grammar
  let o ← if matched.forced then pure matched else narrow pairs machine allowed matched
  if o.mode ∈ allowed then pure o else Parser.fail

end Operand

end CrossAsm
