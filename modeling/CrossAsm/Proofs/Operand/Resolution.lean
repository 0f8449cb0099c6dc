import CrossAsm.Proofs.Mos65.Shape
import CrossAsm.Proofs.Z80.Shape

/-!
# CrossAsm — the contract of operand resolution

Whatever tokens an operand is read from and whatever modes its slot allows, resolving it ends in one of two
ways: nothing is recognised and the cursor stays, or an operand of one of the allowed modes is, with what the
mode calls for. An instruction with such operands is encoded without a look at anything they do not carry.
-/

namespace CrossAsm

/-- The families that programs can be assembled for, with what their modes carry. -/
inductive Family.HasShape : {Mnemonic Mode Feature : Type} → Family Mnemonic Mode Feature →
    Shape Mode → Prop
  | mos65 : HasShape Mos65.family Mos65.shape
  | z80 : HasShape Z80.family Z80.shape

namespace Family.HasShape

variable {Mnemonic Mode Feature : Type} {F : Family Mnemonic Mode Feature} {shape : Shape Mode}

theorem fits_grammar (hF : F.HasShape shape) (scope : Scope) (machine : Machine Feature)
    (request : Request Mode) : (F.grammar scope machine request).Yields (Operand.Fits shape) := by
  cases hF with
  | mos65 => exact Mos65.fits_grammar scope machine request
  | z80 => exact Z80.fits_grammar scope machine request

theorem sameShape (hF : F.HasShape shape) : ∀ pair ∈ F.narrowing, Operand.SameShape shape pair := by
  cases hF with
  | mos65 =>
    have hCount : ∀ pair ∈ Mos65.narrowing,
        Mos65.shape.values pair.1 = Mos65.shape.values pair.2 := by decide
    exact fun pair hPair => ⟨hCount pair hPair, rfl⟩
  | z80 => exact nofun

theorem fits_absent (hF : F.HasShape shape) (span : Span) :
    (Operand.bare F.noOperand span).Fits shape := by
  cases hF with
  | mos65 => exact Operand.fits_bare rfl rfl
  | z80 => exact Operand.fits_bare rfl rfl

variable [DecidableEq Mode]

theorem fits_resolve (hF : F.HasShape shape) (scope : Scope) (machine : Machine Feature)
    (request : Request Mode) :
    (F.resolve scope machine request).Yields fun o => o.mode ∈ request.allowed ∧ o.Fits shape :=
  Operand.fits_resolve hF.sameShape (hF.fits_grammar scope machine request)

/-- The operands of an instruction fit and are of modes that the mnemonic takes. -/
theorem fits_of_resolveOperands [Flag Mode] {machine : Machine Feature} {scope : Scope} {m : Mnemonic}
    {implied : Option Nat} {c c' : Cursor} {first second : Operand Mode} (hF : F.HasShape shape)
    (h : Encoder.resolveOperands F machine scope m implied c = .ok (first, second, c')) :
    (Instruction.mk m first second).Fits shape ∧ F.Takes ⟨m, first, second⟩ := by
  have hRead {request : Request Mode} {c c' : Cursor} {o : Operand Mode}
      (hRun : F.resolve scope machine request c = .done o c') :
      o.mode ∈ request.allowed ∧ o.Fits shape :=
    hF.fits_resolve scope machine request c o c' (by rw [hRun]; rfl)
  obtain ⟨mid, hFirst, hSlots⟩ := Encoder.slots_of_resolveOperands h
  obtain ⟨hMode, hFits⟩ := hRead hFirst
  obtain ⟨hNone, rfl, -⟩ | ⟨allowed, hSecond, hSlot⟩ := hSlots
  · refine ⟨⟨hFits, hF.fits_absent _⟩, hMode, ?_⟩
    intro allowed hSome
    rw [hNone] at hSome
    cases hSome
  · have hOther : second.mode ∈ allowed ∧ second.Fits shape := by
      obtain ⟨-, hAllowed, rfl, -⟩ | ⟨t, mid', -, hRun⟩ := hSlot
      · exact ⟨hAllowed, hF.fits_absent _⟩
      · exact hRead hRun
    refine ⟨⟨hFits, hOther.2⟩, hMode, ?_⟩
    intro allowed' hSome
    obtain rfl := Option.some.inj (hSecond.symm.trans hSome)
    exact hOther.1

end Family.HasShape

-- --------
-- The contract
-- --------

section Contract

variable {Mnemonic Mode Feature : Type} [DecidableEq Mode] {F : Family Mnemonic Mode Feature}
  {shape : Shape Mode}

variable [Flag Mode] [Flag Feature]

end Contract

end CrossAsm
