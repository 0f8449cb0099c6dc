import CrossAsm.Proofs.Value
import CrossAsm.Width

/-!
# CrossAsm — widths as ranges of integers

The legal values of a width as a range of integers, and the bytes of a value as a number: what stands in
a field is the value modulo `2 ^ bits`, in either byte order.
-/

namespace CrossAsm

namespace Width

theorem size_pos (w : Width) : 0 < w.size := by
  cases w <;> decide

/-- The lowest legal value: zero for page offsets, the lowest signed value otherwise. -/
theorem toInt_low (w : Width) :
    w.low.toInt = if w = .basePage then 0 else -2 ^ (w.bits - 1) := by
  cases w <;> decide

/-- The highest legal value: the highest signed one for displacements, all bits otherwise. -/
theorem toInt_high (w : Width) :
    w.high.toInt = if w.isSigned then 2 ^ (w.bits - 1) - 1 else 2 ^ w.bits - 1 := by
  cases w <;> decide

theorem fits_iff {w : Width} {v : Value} : w.fits v = true ↔ w.low ≤ v ∧ v ≤ w.high := by
  simp only [fits, Value.within, Bool.and_eq_true, decide_eq_true_eq]

/-- A page offset is a number from 0 to 255. -/
theorem fits_basePage_iff {v : Value} :
    Width.basePage.fits v = true ↔ 0 ≤ v.toInt ∧ v.toInt ≤ 255 := by
  rw [fits, Value.within_iff, toInt_low, toInt_high]
  exact Iff.rfl

/-- A byte may be signed or unsigned. -/
theorem fits_byte_iff {v : Value} : Width.byte.fits v = true ↔ -128 ≤ v.toInt ∧ v.toInt ≤ 255 := by
  rw [fits, Value.within_iff, toInt_low, toInt_high]
  exact Iff.rfl

/-- So may a word. -/
theorem fits_word_iff {v : Value} : Width.word.fits v = true ↔ -0x8000 ≤ v.toInt ∧ v.toInt ≤ 0xffff := by
  rw [fits, Value.within_iff, toInt_low, toInt_high]
  exact Iff.rfl

/-- A 16-bit displacement is signed. -/
theorem fits_signedWord_iff {v : Value} :
    Width.signedWord.fits v = true ↔ -0x8000 ≤ v.toInt ∧ v.toInt ≤ 0x7fff := by
  rw [fits, Value.within_iff, toInt_low, toInt_high]
  exact Iff.rfl

theorem ofNat_toNat_div (v : Value) {n : Nat} (hn : n ≤ 3) :
    UInt8.ofNat (v.toUInt64.toNat / 256 ^ n) = UInt8.ofNat (v.toInt / 256 ^ n % 256).toNat := by
  apply UInt8.toNat_inj.mp
  rw [UInt8.toNat_ofNat', UInt8.toNat_ofNat']
  have hCases := Value.toInt_eq_toNat_sub v
  rcases (show n = 0 ∨ n = 1 ∨ n = 2 ∨ n = 3 by omega) with rfl | rfl | rfl | rfl <;> omega

theorem encode_byte (v : Value) : Width.byte.encode v = [UInt8.ofNat (v.toInt % 256).toNat] := by
  have hByte := ofNat_toNat_div v (show 0 ≤ 3 by decide)
  simpa [encode, lowBytes, isBigEndian, size] using hByte

theorem encode_doubleWord (v : Value) :
    Width.doubleWord.encode v =
      [0, 1, 2, 3].map fun n => UInt8.ofNat (v.toInt / 256 ^ n % 256).toNat := by
  have hBytes (n : Nat) (hn : n ≤ 3) := ofNat_toNat_div v hn
  simp only [encode, lowBytes, isBigEndian, size, List.map_cons, List.map_nil, Bool.false_eq_true,
    if_false, Nat.div_div_eq_div_mul]
  rw [← hBytes 0 (by decide), ← hBytes 1 (by decide), ← hBytes 2 (by decide), ← hBytes 3 (by decide)]
  simp

/-- The remainder modulo `2 ^ bits` is that of the bits. -/
theorem toNat_mod (w : Width) (v : Value) : (v.toInt % 2 ^ w.bits).toNat = v.toUInt64.toNat % 256 ^ w.size := by
  have hCases := Value.toInt_eq_toNat_sub v
  cases w <;>
    simp only [size, bits, Nat.reduceMul, Nat.reducePow, Int.reducePow, Nat.mul_one] <;>
    omega

/-- Reading the low bytes of a number gives it modulo `256 ^ n`. -/
theorem ofLowBytes_lowBytes (n v : Nat) : ofLowBytes (lowBytes n v) = v % 256 ^ n := by
  induction n generalizing v with
  | zero => simp [lowBytes, ofLowBytes, Nat.mod_one]
  | succ n ih =>
    have hHead : (UInt8.ofNat v).toNat = v % 256 := rfl
    rw [lowBytes, ofLowBytes, ih, hHead, Nat.pow_succ, Nat.mul_comm (256 ^ n) 256, Nat.mod_mul]

/-- Reading a field back gives the value modulo `2 ^ bits`. -/
theorem decode_encode (w : Width) (v : Value) :
    (w.decode (w.encode v) : Int) = v.toInt % 2 ^ w.bits := by
  have hBytes : w.decode (w.encode v) = v.toUInt64.toNat % 256 ^ w.size := by
    unfold decode encode
    cases w.isBigEndian with
    | false => exact ofLowBytes_lowBytes _ _
    | true =>
      simp only [if_true, List.reverse_reverse]
      exact ofLowBytes_lowBytes _ _
  have hPos : (2 : Int) ^ w.bits ≠ 0 := by cases w <;> decide
  rw [hBytes, ← toNat_mod]
  exact Int.toNat_of_nonneg (Int.emod_nonneg _ hPos)

/-- The bytes of a number modulo `2 ^ (8 * n)`, lowest first. -/
def littleEndian (n : Nat) (v : Int) : List UInt8 :=
  (List.range n).map fun i => UInt8.ofNat ((v % 2 ^ (8 * n)).toNat / 256 ^ i)

theorem lowBytes_eq (n v : Nat) : lowBytes n v = (List.range n).map fun i => UInt8.ofNat (v / 256 ^ i) := by
  induction n generalizing v with
  | zero => rfl
  | succ n ih =>
    have hStep (i : Nat) : v / 256 / 256 ^ i = v / 256 ^ (i + 1) := by
      rw [Nat.div_div_eq_div_mul, Nat.pow_succ']
    rw [lowBytes, ih, List.range_succ_eq_map, List.map_cons, List.map_map, Nat.pow_zero, Nat.div_one]
    simp only [Function.comp_def, hStep, Nat.succ_eq_add_one]

/-- The low bytes of a number are those of its remainder. -/
theorem ofNat_mod_div {m n i : Nat} (hi : i < n) :
    UInt8.ofNat (m % 256 ^ n / 256 ^ i) = UInt8.ofNat (m / 256 ^ i) := by
  have hSplit : 256 ^ n = 256 ^ i * 256 ^ (n - i) := by rw [← Nat.pow_add, Nat.add_sub_cancel' (Nat.le_of_lt hi)]
  have hByte : 256 ∣ 256 ^ (n - i) := Nat.pow_dvd_pow 256 (show 1 ≤ n - i by omega)
  apply UInt8.toNat_inj.mp
  rw [UInt8.toNat_ofNat', UInt8.toNat_ofNat', hSplit, Nat.mod_mul_right_div_self]
  exact Nat.mod_mod_of_dvd _ hByte

/-- But for one width, the low byte comes first. -/
theorem encode_eq_littleEndian {w : Width} (hw : w.isBigEndian = false) (v : Value) :
    w.encode v = littleEndian w.size v.toInt := by
  have hMod : (v.toInt % 2 ^ (8 * w.size)).toNat = v.toUInt64.toNat % 256 ^ w.size := toNat_mod w v
  unfold encode littleEndian
  rw [hw, if_neg Bool.false_ne_true, lowBytes_eq, hMod]
  refine List.map_congr_left fun i hi => ?_
  rw [ofNat_mod_div (List.mem_range.mp hi)]

/-- The signed number that bytes hold in this width's byte order. -/
def decodeSigned (w : Width) (bytes : List UInt8) : Int := Int.bmod (w.decode bytes) (2 ^ w.bits)

/-- A legal displacement is read back as it is. -/
theorem decodeSigned_encode {w : Width} {v : Value} (hSigned : w.isSigned = true)
    (hFits : w.fits v = true) : w.decodeSigned (w.encode v) = v.toInt := by
  have hHalf : (2 : Int) ^ w.bits = 2 * 2 ^ (w.bits - 1) := by cases w <;> rfl
  have hCast : ((2 ^ w.bits : Nat) : Int) = 2 ^ w.bits := by norm_cast
  have hPage : w ≠ .basePage := by
    rintro rfl
    cases hSigned
  rw [fits, Value.within_iff, toInt_low, toInt_high, if_neg hPage, if_pos hSigned] at hFits
  rw [decodeSigned, decode_encode, ← hCast, Int.emod_bmod]
  exact Int.bmod_eq_of_le (by omega) (by omega)

end Width

end CrossAsm
