import CrossAsm.Proofs.Width

/-!
# CrossAsm — 16-bit words

The processors count in 16 bits. An address or a distance is seen by them as the low 16 bits of its value, and
this is what the bytes of a word hold, low byte first, and what a displacement of one byte is extended to.
-/

namespace CrossAsm

/-- The word in two bytes. -/
def joined (low high : UInt8) : BitVec 16 := high.toBitVec ++ low.toBitVec

/-- The word that a byte with a sign is extended to. -/
def extended (byte : UInt8) : BitVec 16 := byte.toBitVec.signExtend 16

/-- The high byte of a word. -/
def highByte (w : BitVec 16) : BitVec 8 := w.extractLsb' 8 8

/-- The low byte of a word. -/
def lowByte (w : BitVec 16) : BitVec 8 := w.extractLsb' 0 8

@[simp] theorem highByte_append (high low : BitVec 8) : highByte (high ++ low) = high :=
  BitVec.extractLsb'_append_eq_left

@[simp] theorem lowByte_append (high low : BitVec 8) : lowByte (high ++ low) = low :=
  BitVec.extractLsb'_append_eq_right

@[simp] theorem append_bytes (w : BitVec 16) : highByte w ++ lowByte w = w :=
  (BitVec.extractLsb'_append_extractLsb'_eq_extractLsb' rfl).trans BitVec.extractLsb'_eq_self

namespace Value

/-- The low 16 bits of a value. -/
def word (v : Value) : BitVec 16 := v.toBitVec.setWidth 16

theorem word_add (a b : Value) : (a + b).word = a.word + b.word := by
  rw [word, Int64.toBitVec_add]
  exact BitVec.setWidth_add _ _ (by decide)

theorem word_sub (a b : Value) : (a - b).word = a.word - b.word := by
  have hSum := word_add (a - b) b
  rw [Int64.sub_add_cancel] at hSum
  rw [hSum, BitVec.add_sub_cancel]

/-- The number of the low 16 bits. -/
theorem toNat_word (v : Value) : (v.word.toNat : Int) = v.toInt % 2 ^ 16 := by
  have hBits : v.word.toNat = v.toUInt64.toNat % 2 ^ 16 := BitVec.toNat_setWidth ..
  have hCases := toInt_eq_toNat_sub v
  omega

end Value

namespace Width

/-- The bytes of a word. -/
theorem exists_encode_word (v : Value) : ∃ low high, word.encode v = [low, high] ∧ joined low high = v.word := by
  refine ⟨_, _, rfl, ?_⟩
  apply BitVec.eq_of_toNat_eq
  have hWord := Value.toNat_word v
  have hCases := Value.toInt_eq_toNat_sub v
  rw [joined, BitVec.toNat_append, ← Nat.shiftLeft_add_eq_or_of_lt (BitVec.isLt _), Nat.shiftLeft_eq]
  show v.toUInt64.toNat / 256 % 2 ^ 8 * 2 ^ 8 + v.toUInt64.toNat % 2 ^ 8 = _
  omega

/-- The byte of a displacement. -/
theorem exists_encode_signedByte {v : Value} (hFits : signedByte.fits v = true) :
    ∃ byte, signedByte.encode v = [byte] ∧ extended byte = v.word := by
  refine ⟨UInt8.ofNat v.toUInt64.toNat, rfl, ?_⟩
  have hSigned : (UInt8.ofNat v.toUInt64.toNat).toBitVec.toInt = v.toInt := by
    rw [← decodeSigned_encode (w := .signedByte) rfl hFits, BitVec.toInt_eq_toNat_bmod]
    rfl
  have hWord := Value.toNat_word v
  apply BitVec.eq_of_toNat_eq
  rw [extended, BitVec.signExtend, hSigned, BitVec.toNat_ofInt]
  omega

end Width

end CrossAsm
