import CrossAsm.Value

/-!
# CrossAsm — widths of emitted values

A width says how many bytes a value takes in the output, in which order they stand and which values
are legal. `encode` writes a value into its bytes and `decode` reads the bytes back as the unsigned
number they hold.
-/

namespace CrossAsm

/-- Size, byte order and legal range of an emitted value. -/
inductive Width where
  /-- 8 bits, signed or unsigned. -/
  | byte
  /-- 8-bit signed displacement. -/
  | signedByte
  /-- 8-bit unsigned offset into the base page. -/
  | basePage
  /-- 16 bits, low byte first, signed or unsigned. -/
  | word
  /-- 16-bit signed displacement, low byte first. -/
  | signedWord
  /-- 16 bits, high byte first. -/
  | wordBigEndian
  /-- 24 bits, low byte first. -/
  | long
  /-- 32 bits, low byte first. -/
  | doubleWord
deriving DecidableEq, Repr

namespace Width

/-- Width in bytes. -/
def size : Width → Nat
  | .byte | .signedByte | .basePage => 1
  | .word | .signedWord | .wordBigEndian => 2
  | .long => 3
  | .doubleWord => 4

/-- Width in bits. -/
def bits (w : Width) : Nat := 8 * w.size

/-- Whether only the signed interpretation is legal. -/
def isSigned : Width → Bool
  | .signedByte | .signedWord => true
  | _ => false

/-- The lowest legal value. -/
def low : Width → Value
  | .basePage => 0
  | w => -((1 : Value) <<< Value.ofNat (w.bits - 1))

/-- The highest legal value: displacements are signed, everything else may use all its bits. -/
def high (w : Width) : Value :=
  ((1 : Value) <<< Value.ofNat (if w.isSigned then w.bits - 1 else w.bits)) - 1

/-- Whether a value is legal for this width. -/
def fits (w : Width) (v : Value) : Bool := v.within w.low w.high

/-- The `n` low bytes of a number, lowest first. -/
def lowBytes : Nat → Nat → List UInt8
  | 0, _ => []
  | n + 1, v => UInt8.ofNat v :: lowBytes n (v / 256)

/-- Whether the high byte comes first. -/
def isBigEndian : Width → Bool
  | .wordBigEndian => true
  | _ => false

/-- The bytes of a value in this width's byte order; higher bits are cut off. -/
def encode (w : Width) (v : Value) : List UInt8 :=
  let bytes := lowBytes w.size v.toUInt64.toNat
  if w.isBigEndian then bytes.reverse else bytes

/-- The number that bytes hold, lowest byte first. -/
def ofLowBytes : List UInt8 → Nat
  | [] => 0
  | b :: bs => b.toNat + 256 * ofLowBytes bs

/-- The unsigned number that bytes hold in this width's byte order. -/
def decode (w : Width) (bytes : List UInt8) : Nat :=
  ofLowBytes (if w.isBigEndian then bytes.reverse else bytes)

@[simp] theorem length_lowBytes (n v : Nat) : (lowBytes n v).length = n := by
  induction n generalizing v with
  | zero => rfl
  | succ n ih => simp [lowBytes, ih]

@[simp] theorem length_encode (w : Width) (v : Value) : (w.encode v).length = w.size := by
  unfold encode
  split <;> simp

end Width

end CrossAsm
