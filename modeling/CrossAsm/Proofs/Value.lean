import Mathlib.Algebra.Order.Ring.Int
import CrossAsm.Value

/-!
# CrossAsm — values as integers

A value stands for a signed integer, and its bits for the unsigned number `v.toUInt64.toNat`. This module
says what division, masks, shifts and merging do to the one or the other.
-/

namespace CrossAsm.Value

/-- The order of values is that of the integers they stand for. -/
theorem within_iff {v low high : Value} :
    v.within low high = true ↔ low.toInt ≤ v.toInt ∧ v.toInt ≤ high.toInt := by
  simp only [within, Bool.and_eq_true, decide_eq_true_eq, Int64.le_iff_toInt_le]

/-- A value as the unsigned number of its bits: negative values have `2 ^ 64` added to them. -/
theorem toInt_eq_toNat_sub (v : Value) :
    v.toInt = v.toUInt64.toNat ∧ v.toUInt64.toNat < 2 ^ 63 ∨
      v.toInt = v.toUInt64.toNat - 2 ^ 64 ∧ 2 ^ 63 ≤ v.toUInt64.toNat ∧ v.toUInt64.toNat < 2 ^ 64 := by
  have hWord : v.toInt = v.toBitVec.toInt := rfl
  have hNat : v.toUInt64.toNat = v.toBitVec.toNat := rfl
  have hLt := v.toBitVec.isLt
  rw [hWord, hNat, BitVec.toInt_eq_toNat_cond]
  split
  · exact Or.inl ⟨rfl, by omega⟩
  · exact Or.inr ⟨by norm_cast, by omega, hLt⟩

/-- A value is the number of its bits, reduced. -/
theorem toInt_eq_bmod (v : Value) : v.toInt = (v.toUInt64.toNat : Int).bmod (2 ^ 64) :=
  BitVec.toInt_eq_toNat_bmod v.toBitVec

theorem toInt_add_of_lt {a b : Value} (hLow : -2 ^ 63 ≤ a.toInt + b.toInt)
    (hHigh : a.toInt + b.toInt < 2 ^ 63) : (a + b).toInt = a.toInt + b.toInt := by
  rw [Int64.toInt_add]
  exact Int.bmod_eq_of_le (by omega) (by omega)

/-- The difference of two addresses does not wrap around. -/
theorem toInt_sub_of_nonneg {a b : Value} (ha : 0 ≤ a) (hb : 0 ≤ b) :
    (b - a).toInt = b.toInt - a.toInt := by
  have ha' : 0 ≤ a.toInt := Int64.le_iff_toInt_le.mp ha
  have hb' : 0 ≤ b.toInt := Int64.le_iff_toInt_le.mp hb
  have haLt := Int64.toInt_lt a
  have hbLt := Int64.toInt_lt b
  rw [Int64.toInt_sub]
  exact Int.bmod_eq_of_le (by omega) (by omega)

theorem toInt_mul_of_lt {a b : Value} (hLow : -2 ^ 63 ≤ a.toInt * b.toInt)
    (hHigh : a.toInt * b.toInt < 2 ^ 63) : (a * b).toInt = a.toInt * b.toInt := by
  rw [Int64.toInt_mul]
  exact Int.bmod_eq_of_le (by omega) (by omega)

/-- Quotient and remainder make up the dividend, also where the quotient wraps around. -/
theorem div_mul_add_mod (a b : Value) : a / b * b + a % b = a := by
  apply Int64.toInt_inj.mp
  rw [Int64.toInt_add, Int64.toInt_mul, Int64.toInt_div, Int64.toInt_mod, Int.bmod_mul_bmod,
    Int.bmod_add_bmod, Int.tdiv_mul_add_tmod]
  exact a.toInt_bmod

/-- Keeping the lowest bits is taking the remainder. -/
theorem toInt_and_ofNat (v : Value) {n : Nat} (hn : n < 63) :
    (v &&& ofNat (2 ^ n - 1)).toInt = v.toInt % 2 ^ n := by
  have hPow : 2 ^ n < 2 ^ 63 := Nat.pow_lt_pow_right (by omega) hn
  have hMask : (ofNat (2 ^ n - 1)).toBitVec.toNat = 2 ^ n - 1 := by
    show (2 ^ n - 1) % 2 ^ 64 = 2 ^ n - 1
    exact Nat.mod_eq_of_lt (by omega)
  have hBits : (v &&& ofNat (2 ^ n - 1)).toUInt64.toNat = v.toUInt64.toNat % 2 ^ n := by
    show (v &&& ofNat (2 ^ n - 1)).toBitVec.toNat = v.toBitVec.toNat % 2 ^ n
    rw [Int64.toBitVec_and, BitVec.toNat_and, hMask, Nat.and_two_pow_sub_one_eq_mod]
  have hSmall : v.toUInt64.toNat % 2 ^ n < 2 ^ n := Nat.mod_lt _ (Nat.two_pow_pos n)
  have hDvd : (2 : Int) ^ n ∣ 2 ^ 64 := by
    exact_mod_cast Nat.pow_dvd_pow 2 (show n ≤ 64 by omega)
  rcases toInt_eq_toNat_sub (v &&& ofNat (2 ^ n - 1)) with ⟨hInt, -⟩ | ⟨-, hBig, -⟩
  · rw [hInt, hBits]
    rcases toInt_eq_toNat_sub v with ⟨hv, -⟩ | ⟨hv, -⟩
    · rw [hv]
      norm_cast
    · rw [hv, Int.sub_emod, Int.emod_eq_zero_of_dvd hDvd]
      simp
  · omega

/-- A shift to the left multiplies, modulo `2 ^ 64`. -/
theorem toNat_shiftLeft (v : Value) {count : Value} {n : Nat}
    (hCount : (count.toBitVec.smod 64).toNat = n) :
    (v <<< count).toUInt64.toNat = v.toUInt64.toNat * 2 ^ n % 2 ^ 64 := by
  show (v <<< count).toBitVec.toNat = v.toBitVec.toNat * 2 ^ n % 2 ^ 64
  rw [Int64.toBitVec_shiftLeft, BitVec.shiftLeft_eq', BitVec.toNat_shiftLeft, hCount,
    Nat.shiftLeft_eq]

theorem within_bits_iff {count : Value} :
    count.within 0 63 = true ↔ 0 ≤ count.toInt ∧ count.toInt ≤ 63 := within_iff

/-- A count below the size of a word is taken as it is. -/
theorem toNat_smod_of_within {count : Value} (h : count.within 0 63 = true) :
    (count.toBitVec.smod 64).toNat = count.toInt.toNat := by
  obtain ⟨hLow, hHigh⟩ := within_bits_iff.mp h
  have hSigned : (count.toBitVec.smod 64).toInt = count.toInt := by
    rw [BitVec.toInt_smod]
    exact Int.fmod_eq_of_lt hLow (Int.lt_add_one_of_le hHigh)
  have hBits := BitVec.toInt_eq_toNat_cond (count.toBitVec.smod 64)
  have hLt := (count.toBitVec.smod 64).isLt
  omega

/-- A shift to the left multiplies, and the product is reduced. -/
theorem toInt_shiftLeft (v : Value) {count : Value} (h : count.within 0 63 = true) :
    (v <<< count).toInt = (v.toInt * 2 ^ count.toInt.toNat).bmod (2 ^ 64) := by
  rw [toInt_eq_bmod (v <<< count), toNat_shiftLeft v (toNat_smod_of_within h), toInt_eq_bmod v,
    Int.bmod_mul_bmod, ← Int.emod_bmod (_ * _)]
  norm_cast

/-- Multiplied by a power that a word cannot hold, nothing is left. -/
theorem bmod_mul_two_pow (x : Int) {n : Nat} (hn : 64 ≤ n) : (x * 2 ^ n).bmod (2 ^ 64) = 0 := by
  have hPow : ((2 ^ 64 : Nat) : Int) ∣ 2 ^ n := by exact_mod_cast Nat.pow_dvd_pow 2 hn
  exact Int.bmod_eq_zero_of_dvd (hPow.mul_left x)

/-- A shift to the right divides, rounding down. -/
theorem toInt_shiftRight (v : Value) {count : Value} {n : Nat}
    (hCount : (count.toBitVec.smod 64).toNat = n) : (v >>> count).toInt = v.toInt / 2 ^ n := by
  show (v >>> count).toBitVec.toInt = v.toBitVec.toInt / 2 ^ n
  rw [Int64.toBitVec_shiftRight, BitVec.sshiftRight_eq', hCount, BitVec.toInt_sshiftRight,
    Int.shiftRight_eq_div_pow]
  norm_cast

/-- Divided by a power that a word cannot hold, only the sign is left. -/
theorem toInt_div_two_pow (v : Value) {n : Nat} (hn : 64 ≤ n) :
    v.toInt / 2 ^ n = if v < 0 then -1 else 0 := by
  have hLow := v.le_toInt
  have hHigh := v.toInt_lt
  have hPow : (2 : Int) ^ 64 ≤ 2 ^ n := by exact_mod_cast Nat.pow_le_pow_right (by decide) hn
  have hSign : v < 0 ↔ v.toInt < 0 := Int64.lt_iff_toInt_lt
  split
  · next hNegative => exact Int.ediv_eq_neg_one_of_neg_of_le (hSign.mp hNegative) (by omega)
  · next hPositive =>
    exact Int.ediv_eq_zero_of_lt (Int.not_lt.mp (mt hSign.mpr hPositive)) (by omega)

theorem two_pow_le_or_iff {k a b : Nat} : 2 ^ k ≤ a ||| b ↔ 2 ^ k ≤ a ∨ 2 ^ k ≤ b := by
  constructor
  · intro hBig
    by_cases hEither : 2 ^ k ≤ a ∨ 2 ^ k ≤ b
    · exact hEither
    · have hBoth : a ||| b < 2 ^ k := Nat.or_lt_two_pow (by omega) (by omega)
      omega
  · rintro (hBig | hBig)
    · exact Nat.le_trans hBig Nat.left_le_or
    · exact Nat.le_trans hBig Nat.right_le_or

/-- Merging a byte into a value changes only the low byte. -/
theorem toNat_ofNat_or {k : Nat} (hk : k < 256) (v : Value) :
    (ofNat k ||| v).toUInt64.toNat =
      v.toUInt64.toNat / 256 * 256 + (k ||| v.toUInt64.toNat % 256) := by
  have hBits : (ofNat k ||| v).toUInt64.toNat = k ||| v.toUInt64.toNat := by
    show (ofNat k ||| v).toBitVec.toNat = k ||| v.toBitVec.toNat
    rw [Int64.toBitVec_or, BitVec.toNat_or]
    show k % 2 ^ 64 ||| v.toBitVec.toNat = _
    rw [Nat.mod_eq_of_lt (by omega)]
  generalize v.toUInt64.toNat = n at *
  have hDiv : (k ||| n) / 256 = n / 256 := by
    show (k ||| n) / 2 ^ 8 = n / 2 ^ 8
    rw [Nat.or_div_two_pow, Nat.div_eq_of_lt hk, Nat.zero_or]
  have hMod : (k ||| n) % 256 = k ||| n % 256 := by
    show (k ||| n) % 2 ^ 8 = k ||| n % 2 ^ 8
    rw [Nat.or_mod_two_pow, Nat.mod_eq_of_lt hk]
  rw [hBits]
  omega

end CrossAsm.Value
