import CrossAsm.Proofs.Encoder.Output
import CrossAsm.Proofs.Expr.Evaluation
import CrossAsm.Proofs.Symbol

/-!
# CrossAsm — displacements

A relative transfer ends with the distance to its target, counted from behind the instruction. It is written
as a number or left to the linker, depending on what is known about the two addresses.

* `RelativeForm` — one of the encodings of a relative transfer.
* `RelativeForm.Encodes.reaches_target` — in the linked bytes, the displacement leads to the target in any case.
-/

namespace CrossAsm

/-- How a relative transfer is encoded. -/
structure RelativeForm where
  /-- The opcode, unless it depends on an operand. -/
  opcode? : Option UInt8
  /-- The number of bytes in front of the displacement. -/
  lead : Nat := 1
  /-- Whether the displacement has 16 bits. -/
  isLong : Bool := false

/-- A transfer to an address that is encoded relative to its own. -/
structure Transfer where
  target : Expr
  forms : List RelativeForm

namespace RelativeForm

variable (form : RelativeForm)

def width : Width := if form.isLong then .signedWord else .signedByte

theorem isSigned_width : form.width.isSigned = true := by
  unfold width
  split <;> rfl

/-- The number of bytes of the instruction. -/
def size : Nat := form.lead + form.width.size

/-- The items of the instruction at the address `counter`: the displacement comes last. -/
def Encodes (target counter : Expr) (items : List Item) : Prop :=
  ∃ front, items = front ++ [.value (target.relativeTo counter (Value.ofNat form.size)) form.width] ∧
    Item.total front = form.lead ∧ ∀ opcode, form.opcode? = some opcode → front = [.bytes [opcode]]

variable {form} {target : Expr} {items : List Item} {span : Span} {a e : Encoder}
  (h : form.Encodes target (a.output.positionExpr span) items) (hWrites : Encoder.Writes items a e)

include h hWrites

theorem Encodes.size_output : e.output.size = a.output.size + form.size := by
  obtain ⟨front, rfl, hLead, -⟩ := h
  rw [hWrites.output, Section.writeAll_append, Section.size_writeAll, Section.size_writeAll, hLead]
  exact Nat.add_assoc _ _ _

variable {final : Section} {t : SymbolTable} {base : Value} {out : List UInt8}
  (hWell : a.output.WellFormed) (hMore : e.output.Extends final) (hFinal : final.WellFormed)
  (hLink : final.link t base = .ok out)

include hWell hMore hFinal hLink

/-- **A displacement leads to its target**, wherever the instruction is loaded and whatever is written
behind it. -/
theorem Encodes.reaches_target :
    ∃ v, t.evaluate base target = .ok v ∧
      a.output.origin.getD base + Value.ofNat a.output.size + Value.ofNat form.size +
        Int64.ofInt (form.width.decodeSigned
          (Section.field out (a.output.size + form.lead) form.width.size)) = v := by
  obtain ⟨front, hItems, hLead, -⟩ := h
  have hItem : items[front.length]? = some
      (.value (target.relativeTo (a.output.positionExpr span) (Value.ofNat form.size)) form.width) := by
    rw [hItems, List.getElem?_append_right (Nat.le_refl _), Nat.sub_self]
    rfl
  have hFront : items.take front.length = front := by
    rw [hItems, List.take_left]
  rw [hWrites.output] at hMore
  obtain ⟨d, hDistance, hLate, hField⟩ :=
    Section.field_link_writeAll hWell hMore hItem hFinal hLink
  rw [hFront, hLead] at hField
  have hFits : form.width.fits d = true := by
    cases hValue : Expr.value?
        (target.relativeTo (a.output.positionExpr span) (Value.ofNat form.size)) with
    | none => exact hLate hValue
    | some known =>
      have hSame : known = d := by
        have hKnown : t.evaluate base _ = .ok known := Expr.evaluate_of_value? hValue
        exact Except.ok.inj (hKnown.symm.trans hDistance)
      exact hSame ▸ hWrites.fits _ _ known (List.mem_of_getElem? hItem) hValue
  have hTarget := Expr.evaluate_relativeTo
    (a.output.evaluate_positionExpr span base (t.valueOf base t.symbols)) target
    (Value.ofNat form.size)
  have hMap := hTarget.symm.trans hDistance
  obtain ⟨v, hValue, hSame⟩ := Action.map_eq_ok.mp hMap
  refine ⟨v, hValue, ?_⟩
  rw [hField, Width.decodeSigned_encode form.isSigned_width hFits, Int64.ofInt_toInt, ← hSame,
    Int64.add_comm, Int64.sub_add_cancel]

/-- The opcode is found in front of the displacement. -/
theorem Encodes.opcode_link {opcode : UInt8} (hOpcode : form.opcode? = some opcode) :
    Section.field out a.output.size 1 = [opcode] := by
  obtain ⟨front, rfl, -, hFront⟩ := h
  rw [hWrites.output, hFront opcode hOpcode] at hMore
  exact Section.field_link_emit hWell (Section.extends_of_writeAll (k := 0) hMore rfl) hFinal hLink

end RelativeForm

end CrossAsm
