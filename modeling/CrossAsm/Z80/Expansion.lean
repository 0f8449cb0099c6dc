import CrossAsm.Z80.View

/-!
# CrossAsm — expansions of the Z80 family

Combinations without an opcode of their own: loads of pairs by their halves or over the stack, shifts of
pairs through the carry, and conditional jumps that no opcode has.
-/

namespace CrossAsm.Z80

/-- An expansion of this family. -/
abbrev Expanded := Expansion Mnemonic Mode

/-- A native instruction as a step. -/
def part (m : Mnemonic) (first second : Operand Mode) : Part Mnemonic Mode := .native ⟨m, first, second⟩

/-- An 8-bit register as an operand. -/
def registerOperand (r : Reg) (span : Span) : Operand Mode :=
  if r = .m then .withRegister .registerIndirect Pair.hl.code span
  else .withRegister .register r.code span

/-- An indexed operand some bytes further. -/
def displaced (o : Operand Mode) (offset : Value) : Operand Mode :=
  { o with values := [(o.value 0).offsetBy offset] }

/-- A pair copied by its halves, or over the stack if an index register takes part. -/
def copyPair (i : Instr) : Option (List (Part Mnemonic Mode)) :=
  let span := i.first.span
  let absent : Operand Mode := .bare .none span
  let overStack := [part .push i.second absent, part .pop i.first absent]
  match view i.first, view i.second with
  | .pair t, .pair s =>
    if t = .sp ∨ s = .sp then none
    else
      some [part .ld (registerOperand t.halves.1 span) (registerOperand s.halves.1 span),
            part .ld (registerOperand t.halves.2 span) (registerOperand s.halves.2 span)]
  | .pair p, .index _ | .index _, .pair p => if p = .sp then none else some overStack
  | .index _, .index _ => some overStack
  | _, _ => none

/-- BC or DE loaded from or stored to `(HL)`, low byte first. HL itself would change halfway. -/
def movePair (i : Instr) : Option (List (Part Mnemonic Mode)) :=
  let span := i.first.span
  let absent : Operand Mode := .bare .none span
  let hl (o : Operand Mode) : Operand Mode := .withRegister .pair Pair.hl.code o.span
  match view i.first, view i.second with
  | .pair p, .register .m =>
    if p.avoidsHl then
      some [part .ld (registerOperand p.halves.2 span) i.second, part .inc (hl i.second) absent,
            part .ld (registerOperand p.halves.1 span) i.second, part .dec (hl i.second) absent]
    else none
  | .register .m, .pair p =>
    if p.avoidsHl then
      some [part .ld i.first (registerOperand p.halves.2 span), part .inc (hl i.first) absent,
            part .ld i.first (registerOperand p.halves.1 span), part .dec (hl i.first) absent]
    else none
  | _, _ => none

/-- BC, DE or HL loaded from or stored to `(IX+d)`, low byte first. -/
def moveIndexed (i : Instr) : Option (List (Part Mnemonic Mode)) :=
  let span := i.first.span
  match view i.first, view i.second with
  | .pair p, .indexed .. =>
    if p.isGeneral then
      some [part .ld (registerOperand p.halves.2 span) i.second,
            part .ld (registerOperand p.halves.1 span) (displaced i.second 1)]
    else none
  | .indexed .., .pair p =>
    if p.isGeneral then
      some [part .ld i.first (registerOperand p.halves.2 span),
            part .ld (displaced i.first 1) (registerOperand p.halves.1 span)]
    else none
  | _, _ => none

/-- Whether a shift goes from the low byte to the high one. -/
def Shift.isLeft : Shift → Bool
  | .sla | .rl => true
  | _ => false

/-- A pair shifted through the carry, from the low byte if the shift goes left and from the high byte if
it goes right. -/
def shiftPair (i : Instr) (op : Shift) : Option (List (Part Mnemonic Mode)) :=
  let span := i.first.span
  let absent : Operand Mode := .bare .none span
  let low (p : Pair) := registerOperand p.halves.2 span
  let high (p : Pair) := registerOperand p.halves.1 span
  match view i.first with
  | .pair p =>
    if p = .sp then none
    else if op.isLeft then
      some [part (.shift op) (low p) absent, part (.shift .rl) (high p) absent]
    else
      some [part (.shift op) (high p) absent, part (.shift .rr) (low p) absent]
  | _ => none

/-- A conditional JP to `(HL)` or `(IX)`: the inverse condition jumps over it. -/
def conditionalJump (s : Setting Feature) (i : Instr) : Option (List (Part Mnemonic Mode)) :=
  let span := i.first.span
  match conditional i with
  | (none, _) => none
  | (some cc, target) =>
    let inverse := cc.inverse
    let condition : Operand Mode := .withRegister .condition inverse.code span
    let skip :=
      if inverse.isShort then part .jr condition (.withValue .relative s.label span)
      else part .jp condition (.withValue .address s.label span)
    match view target with
    | .register .m | .indexed .. => some [skip, part .jp target (.bare .none span), .label]
    | _ => none

/-- JR on a condition that it does not have becomes JP. -/
def farJump (i : Instr) : Option (List (Part Mnemonic Mode)) :=
  match conditional i with
  | (none, _) => none
  | (some cc, target) =>
    match view target with
    | .relative e =>
      if cc.isShort then none
      else
        some [part .jp (.withRegister .condition cc.code i.first.span)
          (.withValue .address e target.span)]
    | _ => none

/-- How an instruction is expressed by native ones, if it is not native itself. -/
def expansion? (s : Setting Feature) (i : Instr) : Option Expanded :=
  match i.mnemonic with
  | .ld => (copyPair i <|> movePair i <|> moveIndexed i).map (⟨true, false, ·⟩)
  | .shift op => (shiftPair i op).map (⟨true, false, ·⟩)
  | .jp => (conditionalJump s i).map (⟨true, true, ·⟩)
  | .jr => (farJump i).map (⟨true, false, ·⟩)
  | _ => none

end CrossAsm.Z80
