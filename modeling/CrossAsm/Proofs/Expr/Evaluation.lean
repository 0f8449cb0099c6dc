import CrossAsm.Proofs.Expr.Folding
import CrossAsm.Proofs.Value

/-!
# CrossAsm — the values of derived expressions

The operations that encodings apply to operands (masks, shifts, offsets and merging into an opcode) put a
number beside an operand. Such an expression has the value that the operation gives to the value of the
operand, and it is known exactly if that is.
-/

namespace CrossAsm.Expr

variable {base : Value} {lookup : String → Span → Except Diagnostic Value}

-- --------
-- A number beside an operand
-- --------

/-- A number to the left of an operand. -/
theorem evaluate_const_mkBinary {op : BinaryOp} {a : Value} {f : Value → Value}
    (hOp : ∀ b, op.apply a b = some (f b)) (e : Expr) (s : Span) :
    (mkBinary op (.const a s) e).evaluate base lookup = (e.evaluate base lookup).map f := by
  cases hValue : e.value? with
  | some b => simp [mkBinary, hValue, value?, hOp, evaluate, evaluate_of_value? hValue, Except.map]
  | none =>
    simp only [mkBinary, value?, hValue, evaluate, hOp]
    cases e.evaluate base lookup <;> rfl

/-- An operand whose value can be computed to the right of another one. -/
theorem evaluate_mkBinary_of_ok {op : BinaryOp} {b : Value} {f : Value → Value}
    (hOp : ∀ a, op.apply a b = some (f a)) {rhs : Expr}
    (hRight : rhs.evaluate base lookup = .ok b) (lhs : Expr) :
    (mkBinary op lhs rhs).evaluate base lookup = (lhs.evaluate base lookup).map f := by
  unfold mkBinary
  dsimp only
  split
  · next x y hx hy =>
    rw [evaluate_of_value? hy] at hRight
    obtain rfl := Except.ok.inj hRight
    rw [evaluate_of_value? hx, hOp]
    rfl
  · simp only [evaluate, hRight, hOp]
    cases lhs.evaluate base lookup <;> rfl

/-- A number to the right of an operand. -/
theorem evaluate_mkBinary_const {op : BinaryOp} {b : Value} {f : Value → Value}
    (hOp : ∀ a, op.apply a b = some (f a)) (e : Expr) (s : Span) :
    (mkBinary op e (.const b s)).evaluate base lookup = (e.evaluate base lookup).map f :=
  evaluate_mkBinary_of_ok hOp rfl e

theorem evaluate_withSpan_mkBinary (op : BinaryOp) (lhs rhs : Expr) (s : Span) :
    ((mkBinary op lhs rhs).withSpan s).evaluate base lookup =
      (mkBinary op lhs rhs).evaluate base lookup := by
  unfold mkBinary
  dsimp only
  split <;> rfl

theorem value?_mkBinary_eq_none {op : BinaryOp} {lhs rhs : Expr}
    (h : lhs.value? = none ∨ rhs.value? = none) : (mkBinary op lhs rhs).value? = none := by
  unfold mkBinary
  dsimp only
  split
  · next a b ha hb =>
    rw [ha, hb] at h
    simp at h
  · rfl

-- --------
-- Derived operations
-- --------

theorem toInt_and_lowMask (v : Value) {n : Nat} (hn : n < 63) :
    (v &&& lowMask n).toInt = v.toInt % 2 ^ n := by
  rw [lowMask_eq]
  exact Value.toInt_and_ofNat v hn

theorem evaluate_mask (e : Expr) (bits : Nat) :
    (e.mask bits).evaluate base lookup = (e.evaluate base lookup).map (· &&& lowMask bits) :=
  evaluate_mkBinary_const (fun _ => rfl) e e.span

theorem value?_mask_eq_none {e : Expr} (h : e.value? = none) (bits : Nat) :
    (e.mask bits).value? = none := value?_mkBinary_eq_none (.inl h)

theorem value?_mask {e : Expr} {v : Value} (h : e.value? = some v) (bits : Nat) :
    (e.mask bits).value? = some (v &&& lowMask bits) := by
  simp [mask, mkBinary, h, value?, BinaryOp.apply]

/-- A value shifted left by a positive amount, right by a negative one. -/
def shifted (v amount : Value) : Value :=
  if 0 ≤ amount then BinaryOp.shiftLeftBy v amount else BinaryOp.shiftRightBy v (-amount)

theorem evaluate_shift (e : Expr) (amount : Value) :
    (e.shift amount).evaluate base lookup = (e.evaluate base lookup).map (shifted · amount) := by
  unfold shift shifted
  split
  · exact evaluate_mkBinary_const (fun _ => rfl) e e.span
  · exact evaluate_mkBinary_const (fun _ => rfl) e e.span

theorem value?_shift_eq_none {e : Expr} (h : e.value? = none) (amount : Value) :
    (e.shift amount).value? = none := by
  unfold shift
  split
  · exact value?_mkBinary_eq_none (.inl h)
  · exact value?_mkBinary_eq_none (.inl h)

theorem value?_shift {e : Expr} {v : Value} (h : e.value? = some v) (amount : Value) :
    (e.shift amount).value? = some (shifted v amount) := by
  unfold shift shifted
  split
  · simp [mkBinary, h, value?, BinaryOp.apply]
  · simp [mkBinary, h, value?, BinaryOp.apply]

theorem evaluate_const_mkOr (a : Value) (s : Span) (e : Expr) :
    ((const a s).mkOr e).evaluate base lookup = (e.evaluate base lookup).map (a ||| ·) := by
  rw [mkOr, evaluate_withSpan_mkBinary]
  exact evaluate_const_mkBinary (fun _ => rfl) e s

theorem value?_const_mkOr_eq_none {e : Expr} (h : e.value? = none) (a : Value) (s : Span) :
    ((const a s).mkOr e).value? = none := by
  rw [mkOr, value?_withSpan]
  exact value?_mkBinary_eq_none (.inr h)

theorem value?_offsetBy_eq_none {e : Expr} (h : e.value? = none) (offset : Value) :
    (e.offsetBy offset).value? = none := by
  unfold offsetBy
  split
  · exact h
  · rw [value?_withSpan]
    exact value?_mkBinary_eq_none (.inl h)

theorem evaluate_offsetBy (e : Expr) (offset : Value) :
    (e.offsetBy offset).evaluate base lookup = (e.evaluate base lookup).map (· + offset) := by
  unfold offsetBy
  split
  · next hZero =>
    subst hZero
    cases e.evaluate base lookup with
    | error d => rfl
    | ok v =>
      show Except.ok v = Except.ok (v + 0)
      rw [Int64.add_zero]
  · rw [evaluate_withSpan_mkBinary]
    exact evaluate_mkBinary_const (fun _ => rfl) e e.span

theorem value?_symbol_relativeTo (name : String) (span : Span) (origin : Expr) (adjustment : Value) :
    ((symbol name span).relativeTo origin adjustment).value? = none := by
  simp only [relativeTo, value?_withSpan]
  exact value?_mkBinary_eq_none (.inl rfl)

/-- The distance of a known address is known if the other address is. -/
theorem value?_relativeTo {e : Expr} {v : Value} (h : e.value? = some v) (origin : Expr)
    (adjustment : Value) :
    (e.relativeTo origin adjustment).value? = origin.value?.map fun start => v - (start + adjustment) := by
  unfold relativeTo
  split
  · cases h
  · rw [value?_withSpan]
    cases hOrigin : origin.value? with
    | none => exact value?_mkBinary_eq_none (.inr (value?_mkBinary_eq_none (.inl hOrigin)))
    | some start => simp [mkBinary, h, hOrigin, value?, BinaryOp.apply]

/-- The distance to an address from behind another one. -/
theorem evaluate_relativeTo {origin : Expr} {start : Value}
    (hOrigin : origin.evaluate base lookup = .ok start) (e : Expr) (adjustment : Value) :
    (e.relativeTo origin adjustment).evaluate base lookup =
      (e.evaluate base lookup).map (· - (start + adjustment)) := by
  unfold relativeTo
  split
  · next target span place _ =>
    cases hOrigin
    show Except.ok _ = Except.ok _
    congr 1
    -- The base is in both addresses and drops out of their difference.
    grind
  · rw [evaluate_withSpan_mkBinary]
    refine evaluate_mkBinary_of_ok (fun _ => rfl) ?_ e
    rw [evaluate_mkBinary_const (fun _ => rfl), hOrigin]
    rfl

end CrossAsm.Expr
