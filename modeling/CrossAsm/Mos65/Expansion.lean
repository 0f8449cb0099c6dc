import CrossAsm.Mos65.Encoding

/-!
# CrossAsm — expansions of the 65xx family

32-bit operations stand behind two prefix bytes, LDQ with an immediate loads the four registers one by
one, and a conditional jump is a 16-bit branch or the inverse branch over a JMP.
-/

namespace CrossAsm.Mos65

/-- An expansion of this family. -/
abbrev Expanded := Expansion Mnemonic Mode

/-- A native instruction with one operand. -/
def part (m : Mnemonic) (first : Operand Mode) (span : Span) : Part Mnemonic Mode :=
  .native ⟨m, first, .bare .none span⟩

/-- A 32-bit operation: the 8-bit one behind the prefix. -/
def quad (i : Instr) (single : Mnemonic) : Expanded where
  synthesized := false
  parts := [.bytes [0x42, 0x42], .native ⟨single, i.first, i.second⟩]

/-- The registers behind A of a 32-bit load, from low to high: how each is loaded, and how it is copied
from A. -/
def quadLoads : List (Special × Implied) := [(.ldx, .tax), (.ldy, .tay), (.ldz, .taz)]

/-- The four bytes of a value from low to high. -/
def quadBytes (value : Expr) : List Expr :=
  [0, -8, -16, -24].map fun amount => (value.shift amount).mask 8

/-- LDQ with an immediate: the bytes go to A, X, Y and Z. A byte known to be the one in A is copied. -/
def loadQuad (o : Operand Mode) : Expanded where
  synthesized := true
  parts :=
    let value := o.value 0
    let immediate (byte : Expr) : Operand Mode := .withValue .immediate byte o.span
    .check value (-0x80000000) 0xffffffff ::
      match quadBytes value with
      | [] => []
      | low :: others =>
        part (.alu .lda) (immediate low) o.span ::
          (others.zip quadLoads).map fun (byte, load, copy) =>
            if byte.isConstant && byte.value? == low.value? then
              part (.implied copy) (.bare .none o.span) o.span
            else part (.special load) (immediate byte) o.span

/-- A conditional jump of any distance. -/
def longJump (s : Setting Feature) (o : Operand Mode) (c : Condition) : Expanded :=
  let target := o.value 0
  if s.has {.ce02} then
    { synthesized := false
      parts := [part (.branch c) (.withValue .relativeLong target o.span) o.span] }
  else
    { synthesized := true
      labelled := true
      parts :=
        [part (.branch c.inverse) (.withValue .relative s.label o.span) o.span,
         part (.special .jmp) (.withValue .absolute target o.span) o.span,
         .label] }

/-- How an instruction is expressed by native ones, if it is not native itself. -/
def expansion? (s : Setting Feature) (i : Instr) : Option Expanded :=
  match i.mnemonic with
  | .quadAlu .lda =>
    some (if i.first.mode = .immediate then loadQuad i.first else quad i (.alu .lda))
  | .quadAlu op => some (quad i (.alu op))
  | .quadModify op => some (quad i (.modify op))
  | .bitq => some (quad i (.special .bit))
  | .asrq => some (quad i (.special .asr))
  | .jump c => some (longJump s i.first c)
  | _ => none

end CrossAsm.Mos65
