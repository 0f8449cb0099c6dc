import CrossAsm.Mos65
import CrossAsm.Proofs.Operand.Shape

/-!
# CrossAsm — the shape of 65xx operands

A bit instruction has up to three expressions, the other modes one or none, and no mode selects a register
by number.
-/

namespace CrossAsm.Mos65

open CrossAsm.Operand (fits_bare fits_withValue)

/-- What the modes carry. -/
def shape : Shape Mode where
  values
    | .none | .accumulator => 0
    | .zeroPageBit => 2
    | .zeroPageBitRelative => 3
    | _ => 1
  registers _ := []

-- --------
-- What the grammar makes
-- --------

section Grammar

variable (scope : Scope) (machine : Machine Feature) (request : Request Mode)

/-- No register is selected, so the expressions are all there is to count. -/
theorem fits_of_length {o : Operand Mode} (hValues : o.values.length = shape.values o.mode)
    (hRegister : o.register = none) : o.Fits shape := by
  refine ⟨hValues, ⟨fun _ => rfl, fun _ => hRegister⟩, ?_⟩
  intro r h
  rw [hRegister] at h
  cases h

theorem fits_accumulator : accumulator.Yields (Operand.Fits shape) :=
  .bind fun _ => .atEnd (fits_bare rfl rfl)

theorem fits_immediate : (immediate scope request).Yields (Operand.Fits shape) := by
  refine .bind fun hash => .bind fun value => .pure ?_
  split
  · exact fits_withValue rfl rfl
  · exact fits_withValue rfl rfl

theorem fits_indirect : (indirect scope machine).Yields (Operand.Fits shape) := by
  refine .bind fun opening => .bind fun pointer => .bind fun comma => ?_
  split
  · refine .bind fun index => ?_
    split
    · exact .bind fun _ => .atEnd (fits_withValue rfl rfl)
    · exact .bind fun _ => .bind fun _ => .bind fun _ => .bind fun _ => .pure (fits_withValue rfl rfl)
  · refine .bind fun closing => .bind fun comma => ?_
    split
    · exact .atEnd (fits_withValue rfl rfl)
    · refine .bind fun index => ?_
      split
      · exact .bind fun _ => .pure (fits_withValue rfl rfl)
      · exact .bind fun _ => .bind fun _ => .pure (fits_withValue rfl rfl)

theorem fits_longIndirect : (longIndirect scope machine).Yields (Operand.Fits shape) := by
  refine .bind fun opening => .bind fun pointer => .bind fun closing => .bind fun comma => ?_
  split
  · exact .bind fun last => .bind fun _ => .pure (fits_withValue rfl rfl)
  · exact .bind fun last => .bind fun _ => .pure (fits_withValue rfl rfl)

theorem fits_bitOperand : (bitOperand scope machine request).Yields (Operand.Fits shape) := by
  refine .bind fun start => .bind fun bit => .bind fun plain => .bind fun address => ?_
  split
  · exact .bind fun _ => .bind fun target => .pure (fits_of_length rfl rfl)
  · exact .pure (fits_of_length rfl rfl)

/-- An index register stands behind a wide mode and a narrow one with one expression each. -/
theorem values_of_indexed :
    indexed.Yields fun found => shape.values found.1 = 1 ∧ shape.values found.2.1 = 1 :=
  .bind fun _ => .orElse (.bind fun _ => .pure ⟨rfl, rfl⟩) (.bind fun _ => .pure ⟨rfl, rfl⟩)

theorem fits_plain (allowed : Modes) : (plain scope allowed).Yields (Operand.Fits shape) := by
  refine .bind fun start => .bind fun width => .bind fun value => ?_
  split
  · refine .pure (fits_of_length ?_ rfl)
    dsimp only
    split <;> rfl
  · refine (values_of_indexed.orElse (.pure ⟨rfl, rfl⟩)).bind_of ?_
    rintro ⟨wide, narrow, last⟩ ⟨hWide, hNarrow⟩
    cases width with
    | unmarked => exact .pure (fits_withValue hWide rfl)
    | wide => exact .pure (fits_of_length hWide.symm rfl)
    | narrow => exact .pure (fits_of_length hNarrow.symm rfl)

theorem fits_grammar : (grammar scope machine request).Yields (Operand.Fits shape) := by
  refine .look fun c => ?_
  split
  · exact .when (.pure (fits_bare rfl rfl))
  · refine fits_accumulator.orElse ?_
    split
    · exact fits_immediate scope request
    · split
      · exact fits_bitOperand scope machine request
      · exact (fits_indirect scope machine).when.orElse
          ((fits_longIndirect scope machine).when.orElse (fits_plain scope request.allowed))

end Grammar

-- --------
-- What the encodings take
-- --------

section Encoding

variable {o : Operand Mode} {i : Instr} {s : Setting Feature}

end Encoding

end CrossAsm.Mos65
