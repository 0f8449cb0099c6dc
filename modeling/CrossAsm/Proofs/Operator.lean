import CrossAsm.Operator
import CrossAsm.Proofs.Value

/-!
# CrossAsm — operators as integer arithmetic

An operator works on words, but means an operation on integers: its result is the exact one, reduced to a signed word of
64 bits (`Int.bmod`). This holds at the limits too, where words and integers part: for the one quotient that a word cannot
hold, and for counts of any size.
-/

namespace CrossAsm

-- --------
-- Division
-- --------

namespace BinaryOp

theorem toInt_apply_divide (a b : Value) :
    (divide.apply a b).map Int64.toInt =
      if b = 0 then none else some ((a.toInt.tdiv b.toInt).bmod (2 ^ 64)) := by
  rw [apply]
  split
  · rfl
  · exact congrArg some (Int64.toInt_div a b)

/-- A remainder is not larger than its dividend, so there is nothing to reduce. -/
theorem toInt_apply_remainder (a b : Value) :
    (remainder.apply a b).map Int64.toInt =
      if b = 0 then none else some ((a.toInt.tmod b.toInt).bmod (2 ^ 64)) := by
  rw [apply]
  split
  · rfl
  · rw [← Int64.toInt_mod]
    exact congrArg some (a % b).toInt_bmod.symm

/-- The division identity, computed with the operators. -/
theorem divide_multiply_add_remainder (a b : Value) :
    (do
      let q ← divide.apply a b
      let r ← remainder.apply a b
      let p ← multiply.apply q b
      add.apply p r) = if b = 0 then none else some a := by
  -- On words the identity has no exception; it is the operators that have no result for zero.
  by_cases hb : b = 0
  · simp only [apply, if_pos hb]
    rfl
  · simp only [apply, if_neg hb]
    exact congrArg some (Value.div_mul_add_mod a b)

-- --------
-- Shifts
-- --------

/-- A count for which everything is shifted out is negative, or not below the size of a word. -/
theorem neg_or_le_of_not_within {count : Value} (h : ¬count.within 0 63 = true) :
    count < 0 ∨ 0 ≤ count ∧ 64 ≤ count.toInt.toNat := by
  rw [Value.within_bits_iff] at h
  rw [Int64.lt_iff_toInt_lt, Int64.le_iff_toInt_le]
  show count.toInt < 0 ∨ 0 ≤ count.toInt ∧ 64 ≤ count.toInt.toNat
  omega

theorem toInt_shiftLeftBy (v count : Value) :
    (shiftLeftBy v count).toInt =
      if 0 ≤ count then (v.toInt * 2 ^ count.toInt.toNat).bmod (2 ^ 64) else 0 := by
  unfold shiftLeftBy
  split
  · next hWithin =>
    have hCount : 0 ≤ count := Int64.le_iff_toInt_le.mpr (Value.within_bits_iff.mp hWithin).1
    rw [if_pos hCount, Value.toInt_shiftLeft v hWithin]
  · next hOutside =>
    -- Nothing is left for either reason, but only a large count makes this the reduced product.
    rcases neg_or_le_of_not_within hOutside with hNegative | ⟨hCount, hLarge⟩
    · rw [if_neg (Int64.not_le.mpr hNegative)]
      rfl
    · rw [if_pos hCount, Value.bmod_mul_two_pow _ hLarge]
      rfl

theorem toInt_shiftRightBy (v count : Value) :
    (shiftRightBy v count).toInt =
      if 0 ≤ count then v.toInt / 2 ^ count.toInt.toNat else if v < 0 then -1 else 0 := by
  unfold shiftRightBy
  split
  · next hWithin =>
    have hCount : 0 ≤ count := Int64.le_iff_toInt_le.mpr (Value.within_bits_iff.mp hWithin).1
    rw [if_pos hCount, Value.toInt_shiftRight v (Value.toNat_smod_of_within hWithin)]
  · next hOutside =>
    have hSign : (if v < 0 then (-1 : Value) else 0).toInt = if v < 0 then -1 else 0 := by
      split <;> rfl
    rw [hSign]
    rcases neg_or_le_of_not_within hOutside with hNegative | ⟨hCount, hLarge⟩
    · rw [if_neg (Int64.not_le.mpr hNegative)]
    · rw [if_pos hCount, Value.toInt_div_two_pow v hLarge]

theorem shiftLeftBy_of_le (v : Value) {count : Value} (h : 64 ≤ count) : shiftLeftBy v count = 0 := by
  have hOutside : ¬count.within 0 63 = true := by
    intro hWithin
    have hLow : 64 ≤ count.toInt := Int64.le_iff_toInt_le.mp h
    have hHigh := (Value.within_bits_iff.mp hWithin).2
    omega
  rw [shiftLeftBy, if_neg hOutside]

end BinaryOp

-- --------
-- Bytes
-- --------

namespace UnaryOp

theorem toInt_apply_lowByte (v : Value) : (lowByte.apply v).toInt = v.toInt % 256 := by
  have hMask : lowByte.apply v = v &&& Value.ofNat (2 ^ 8 - 1) := rfl
  rw [hMask, Value.toInt_and_ofNat v (by decide)]
  rfl

theorem toInt_apply_highByte (v : Value) : (highByte.apply v).toInt = v.toInt / 256 % 256 := by
  show (lowByte.apply (v >>> 8)).toInt = _
  rw [toInt_apply_lowByte, Value.toInt_shiftRight v rfl]
  rfl

end UnaryOp

-- --------
-- Exact results, reduced
-- --------

/--
**Operators compute with integers.** Sum, difference, product and negation are the exact results, reduced to a signed word.
Quotient and remainder are undefined exactly for a divisor of zero and truncate otherwise; computed with the operators,
`(a / b) * b + a % b` is `a` again, also for the most negative value and `-1`. A shift to the left multiplies by a power of
two, however large, and from 64 places on nothing is left; one to the right divides by the power and rounds down. A negative
count leaves nothing or the sign. The operator `<` takes the lowest byte and `>` the next one.
-/
theorem operators_reduce_exact_results (a b : Value) :
    (BinaryOp.add.apply a b).map Int64.toInt = some ((a.toInt + b.toInt).bmod (2 ^ 64)) ∧
    (BinaryOp.subtract.apply a b).map Int64.toInt = some ((a.toInt - b.toInt).bmod (2 ^ 64)) ∧
    (BinaryOp.multiply.apply a b).map Int64.toInt = some ((a.toInt * b.toInt).bmod (2 ^ 64)) ∧
    (UnaryOp.negate.apply a).toInt = (-a.toInt).bmod (2 ^ 64) ∧
    (BinaryOp.divide.apply a b).map Int64.toInt =
      (if b = 0 then none else some ((a.toInt.tdiv b.toInt).bmod (2 ^ 64))) ∧
    (BinaryOp.remainder.apply a b).map Int64.toInt =
      (if b = 0 then none else some ((a.toInt.tmod b.toInt).bmod (2 ^ 64))) ∧
    (do
      let q ← BinaryOp.divide.apply a b
      let r ← BinaryOp.remainder.apply a b
      let p ← BinaryOp.multiply.apply q b
      BinaryOp.add.apply p r) = (if b = 0 then none else some a) ∧
    (BinaryOp.shiftLeft.apply a b).map Int64.toInt =
      some (if 0 ≤ b then (a.toInt * 2 ^ b.toInt.toNat).bmod (2 ^ 64) else 0) ∧
    (64 ≤ b → BinaryOp.shiftLeft.apply a b = some 0) ∧
    (BinaryOp.shiftRight.apply a b).map Int64.toInt =
      some (if 0 ≤ b then a.toInt / 2 ^ b.toInt.toNat else if a < 0 then -1 else 0) ∧
    (UnaryOp.lowByte.apply a).toInt = a.toInt % 256 ∧
    (UnaryOp.highByte.apply a).toInt = a.toInt / 256 % 256 := by
  refine ⟨?_, ?_, ?_, Int64.toInt_neg a, BinaryOp.toInt_apply_divide a b, BinaryOp.toInt_apply_remainder a b,
    BinaryOp.divide_multiply_add_remainder a b, ?_, ?_, ?_, UnaryOp.toInt_apply_lowByte a,
    UnaryOp.toInt_apply_highByte a⟩
  · exact congrArg some (Int64.toInt_add a b)
  · exact congrArg some (Int64.toInt_sub a b)
  · exact congrArg some (Int64.toInt_mul a b)
  · exact congrArg some (BinaryOp.toInt_shiftLeftBy a b)
  · intro hCount
    exact congrArg some (BinaryOp.shiftLeftBy_of_le a hCount)
  · exact congrArg some (BinaryOp.toInt_shiftRightBy a b)

/-- The most negative value is its own quotient by `-1`, and 64 places shift it out. -/
theorem operators_reduce_exact_results_least :
    BinaryOp.divide.apply Int64.minValue (-1) = some Int64.minValue ∧
      BinaryOp.remainder.apply Int64.minValue (-1) = some 0 ∧
      (64 : Value) ≤ 64 ∧ BinaryOp.shiftLeft.apply Int64.minValue 64 = some 0 := by
  obtain ⟨-, -, -, -, -, -, -, -, hShift, -⟩ := operators_reduce_exact_results Int64.minValue 64
  exact ⟨by decide, by decide, by decide, hShift (by decide)⟩

end CrossAsm
