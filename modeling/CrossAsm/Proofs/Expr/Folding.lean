import Mathlib.Algebra.Order.Ring.Int
import CrossAsm.Expr

/-!
# CrossAsm — folding keeps the meaning of an expression

Expressions are folded while they are built, and what is left of them is evaluated when the program is
linked. This module compares the two with a reading that folds nothing: `Build` is a sequence of
building operations, `Build.folded` carries it out with the operations of the library, and `Build.plain`
makes one node out of each operation.

Main results:

* `Tracks`: the folded and the plain tree stand at the same place, have the same parentheses around
  them and evaluate alike, wherever they are moved to. Every operation keeps this.
* `Folded`: no operation of a folded tree has only known operands, so a tree has a known value exactly
  if it mentions neither a symbol nor the program counter.
* `folding_preserves_evaluation`: the two readings evaluate alike.
-/

namespace CrossAsm

-- --------
-- Building operations
-- --------

/-- The operations that build an expression, applied to the expressions built before. -/
inductive Build where
  | const (value : Value) (span : Span)
  | symbol (name : String) (span : Span)
  | counter (offset : Value) (span : Span)
  | unary (op : UnaryOp) (operand : Build) (span : Span)
  | binary (op : BinaryOp) (lhs rhs : Build)
  | paren (inner : Build) (span : Span)
  | strip (operand : Build)
  | withSpan (operand : Build) (span : Span)
  | mask (operand : Build) (bits : Nat)
  | shift (operand : Build) (amount : Value)
  | relativeTo (target origin : Build) (adjustment : Value)
  | offsetBy (operand : Build) (offset : Value)
  | or (lhs rhs : Build)
deriving DecidableEq, Repr

namespace Build

/-- Carries the operations out with folding. There is no result if constants are divided by zero. -/
def folded : Build → Option Expr
  | .const v s => some (.const v s)
  | .symbol name s => some (.symbol name s)
  | .counter offset s => some (.counter offset s)
  | .unary op operand s => operand.folded.map (Expr.mkUnary op · s)
  | .binary op lhs rhs => do Expr.mkBinary? op (← lhs.folded) (← rhs.folded)
  | .paren inner s => inner.folded.map (Expr.mkParen · s)
  | .strip operand => operand.folded.map Expr.stripParen
  | .withSpan operand s => operand.folded.map (·.withSpan s)
  | .mask operand bits => operand.folded.map (·.mask bits)
  | .shift operand amount => operand.folded.map (·.shift amount)
  | .relativeTo target origin adjustment => do
    let e ← target.folded
    origin.folded.map (e.relativeTo · adjustment)
  | .offsetBy operand offset => operand.folded.map (·.offsetBy offset)
  | .or lhs rhs => do
    let e ← lhs.folded
    rhs.folded.map e.mkOr

/-- One node for each operation and nothing folded: an address difference is written out also between
two addresses of one section, and a mask is the word `2 ^ bits - 1`. Only an offset of zero makes no
node, since it leaves the parentheses of its operand where they are; it is a sum all the same
(`evaluate_plain_offsetBy`). -/
def plain : Build → Expr
  | .const v s => .const v s
  | .symbol name s => .symbol name s
  | .counter offset s => .counter offset s
  | .unary op operand s => .unary op operand.plain s
  | .binary op lhs rhs => .binary op lhs.plain rhs.plain (lhs.plain.span.hull rhs.plain.span)
  | .paren inner s => .paren inner.plain s
  | .strip operand => operand.plain.stripParen
  | .withSpan operand s => operand.plain.withSpan s
  | .mask operand bits =>
    let e := operand.plain
    .binary .and e (.const (Value.ofNat (2 ^ bits - 1)) e.span) e.span
  | .shift operand amount =>
    let e := operand.plain
    if 0 ≤ amount then .binary .shiftLeft e (.const amount e.span) e.span
    else .binary .shiftRight e (.const (-amount) e.span) e.span
  | .relativeTo target origin adjustment =>
    let e := target.plain
    let start := .binary .add origin.plain (.const adjustment e.span) (origin.plain.span.hull e.span)
    .binary .subtract e start e.span
  | .offsetBy operand offset =>
    let e := operand.plain
    if offset = 0 then e else .binary .add e (.const offset e.span) e.span
  | .or lhs rhs => .binary .or lhs.plain rhs.plain lhs.plain.span

end Build

namespace Expr

/-- Whether a tree mentions neither a symbol nor the program counter. -/
def isGround : Expr → Bool
  | .const .. => true
  | .symbol .. | .counter .. => false
  | .unary _ operand _ => operand.isGround
  | .binary _ lhs rhs _ => lhs.isGround && rhs.isGround
  | .paren inner _ => inner.isGround

-- --------
-- Evaluation of known values
-- --------

variable {e lhs rhs : Expr} {v a b base : Value} {lookup : String → Span → Except Diagnostic Value}

/-- A known value is the value at every base and under every assignment. -/
theorem evaluate_of_value? (h : e.value? = some v) : e.evaluate base lookup = .ok v := by
  induction e with
  | const w s =>
    simp only [value?, Option.some.injEq] at h
    rw [evaluate, h]
  | paren inner s ih =>
    rw [evaluate]
    exact ih h
  | _ => simp [value?] at h

@[simp] theorem withSpan_span_self (e : Expr) : e.withSpan e.span = e := by
  cases e <;> rfl

@[simp] theorem withSpan_withSpan (e : Expr) (s s' : Span) :
    (e.withSpan s).withSpan s' = e.withSpan s' := by
  cases e <;> rfl

-- --------
-- The folding constructors
-- --------

/-- Folding a binary operation fails exactly for a division or remainder of known values by zero. -/
theorem mkBinary?_eq_none_iff (op : BinaryOp) (lhs rhs : Expr) :
    mkBinary? op lhs rhs = none ↔
      ∃ a b, lhs.value? = some a ∧ rhs.value? = some b ∧
        (op = .divide ∨ op = .remainder) ∧ b = 0 := by
  have hFallible : op.isFallible = true ↔ op = .divide ∨ op = .remainder := by
    cases op <;> simp [BinaryOp.isFallible]
  unfold mkBinary?
  cases hl : lhs.value? with
  | none => simp
  | some a =>
    cases hr : rhs.value? with
    | none => simp
    | some b =>
      rw [Option.map_eq_none_iff, BinaryOp.apply_eq_none_iff, hFallible]
      constructor
      · intro hFail
        exact ⟨a, b, rfl, rfl, hFail⟩
      · rintro ⟨_, b', _, hValue, hFail⟩
        cases hValue
        exact hFail

/-- An operator that cannot fail is folded alike with and without the possibility of failure. -/
theorem mkBinary?_eq_some_mkBinary {op : BinaryOp} (h : op.isFallible = false) (lhs rhs : Expr) :
    mkBinary? op lhs rhs = some (mkBinary op lhs rhs) := by
  unfold mkBinary? mkBinary
  cases lhs.value? with
  | none => rfl
  | some a =>
    cases rhs.value? with
    | none => rfl
    | some b =>
      obtain ⟨v, hv⟩ := Option.isSome_iff_exists.mp (BinaryOp.apply_isSome_of_not_isFallible h a b)
      simp [hv]

/-- The word of the lowest bits, as a number. -/
theorem lowMask_eq (bits : Nat) : lowMask bits = Value.ofNat (2 ^ bits - 1) := by
  unfold lowMask
  split
  · rename_i h
    have hPow : 2 ^ bits = 2 ^ 64 * 2 ^ (bits - 64) := by
      rw [← Nat.pow_add]
      congr 1
      omega
    have hPos : 0 < 2 ^ (bits - 64) := Nat.two_pow_pos _
    have hMod : (2 ^ bits - 1) % 2 ^ 64 = 2 ^ 64 - 1 := by
      rw [hPow]
      omega
    apply Int64.toBitVec_inj.mp
    apply BitVec.eq_of_toNat_eq
    simp only [Value.ofNat, Int64.toBitVec_ofNat', BitVec.toNat_ofNat]
    rw [hMod]
    decide
  · rename_i h
    have hAll : ∀ n < 64, ((1 : Value) <<< Value.ofNat n) - 1 = Value.ofNat (2 ^ n - 1) := by
      decide
    exact hAll bits (by omega)

-- --------
-- Nothing is left to fold
-- --------

/-- No operation in the tree has only known operands. -/
def Folded : Expr → Prop
  | .const .. | .symbol .. | .counter .. => True
  | .unary _ operand _ => operand.value? = none ∧ operand.Folded
  | .binary _ lhs rhs _ => (lhs.value? = none ∨ rhs.value? = none) ∧ lhs.Folded ∧ rhs.Folded
  | .paren inner _ => inner.Folded

/-- A folded tree has a known value exactly if it mentions neither a symbol nor the counter. -/
theorem Folded.isSome_value? (h : e.Folded) : e.value?.isSome = e.isGround := by
  induction e with
  | const | symbol | counter => rfl
  | unary op operand s ih =>
    obtain ⟨hNone, hOperand⟩ := h
    have hGround := ih hOperand
    rw [hNone] at hGround
    exact hGround
  | binary op lhs rhs s ihl ihr =>
    obtain ⟨hNone, hl, hr⟩ := h
    have hGroundL := ihl hl
    have hGroundR := ihr hr
    show false = (lhs.isGround && rhs.isGround)
    rcases hNone with hNone | hNone
    · rw [← hGroundL, hNone]
      rfl
    · rw [← hGroundR, hNone, Bool.and_comm]
      rfl
  | paren inner s ih => exact ih h

theorem Folded.const (v : Value) (s : Span) : (Expr.const v s).Folded := trivial

theorem Folded.withSpan (h : e.Folded) (s : Span) : (e.withSpan s).Folded := by
  cases e <;> exact h

theorem Folded.stripParen (h : e.Folded) : e.stripParen.Folded := by
  cases e <;> exact h

theorem Folded.mkUnary (h : e.Folded) (op : UnaryOp) (s : Span) : (mkUnary op e s).Folded := by
  unfold Expr.mkUnary
  split
  · trivial
  · rename_i hNone
    exact ⟨hNone, h⟩

theorem Folded.mkBinary? {op : BinaryOp} (hl : lhs.Folded) (hr : rhs.Folded)
    (h : mkBinary? op lhs rhs = some e) : e.Folded := by
  unfold Expr.mkBinary? at h
  split at h
  · obtain ⟨v, -, rfl⟩ := Option.map_eq_some_iff.mp h
    trivial
  · rename_i hKnown
    obtain rfl := Option.some.inj h
    refine ⟨?_, hl, hr⟩
    cases hvl : lhs.value? with
    | none => exact Or.inl rfl
    | some a =>
      cases hvr : rhs.value? with
      | none => exact Or.inr rfl
      | some b => exact absurd hvr (hKnown a b hvl)

theorem Folded.mkBinary {op : BinaryOp} (hOp : op.isFallible = false) (hl : lhs.Folded)
    (hr : rhs.Folded) : (mkBinary op lhs rhs).Folded :=
  Folded.mkBinary? hl hr (mkBinary?_eq_some_mkBinary hOp lhs rhs)

-- --------
-- The folded tree follows the plain one
-- --------

/-- The folded tree `e` follows the plain tree `p`: inside the same parentheses stand two trees at one
place that evaluate alike. Moving a symbol changes the place that its look-up is told, so evaluation is
compared at every place. -/
inductive Tracks : Expr → Expr → Prop
  | bare {e p : Expr} (notParen : e.isParen = false ∧ p.isParen = false) (span : e.span = p.span)
      (evaluate : ∀ s base lookup,
        (e.withSpan s).evaluate base lookup = (p.withSpan s).evaluate base lookup) : Tracks e p
  | paren {e p : Expr} (inner : Tracks e p) (s : Span) : Tracks (.paren e s) (.paren p s)

namespace Tracks

variable {p l r pl pr : Expr}

theorem span_eq (h : Tracks e p) : e.span = p.span := by
  cases h with
  | bare _ hSpan _ => exact hSpan
  | paren _ s => rfl

theorem evaluate_eq (h : Tracks e p) (base : Value)
    (lookup : String → Span → Except Diagnostic Value) :
    e.evaluate base lookup = p.evaluate base lookup := by
  induction h with
  | @bare e p _ hSpan hEval =>
    have hHere := hEval e.span base lookup
    rwa [withSpan_span_self, hSpan, withSpan_span_self] at hHere
  | paren _ s ih =>
    rw [evaluate, evaluate]
    exact ih

theorem refl (e : Expr) : Tracks e e := by
  induction e with
  | paren inner s ih => exact .paren ih s
  | _ => exact .bare ⟨rfl, rfl⟩ rfl fun _ _ _ => rfl

theorem stripParen (h : Tracks e p) : Tracks e.stripParen p.stripParen := by
  cases h with
  | @bare e p hParen hSpan hEval =>
    have hStrip : ∀ t : Expr, t.isParen = false → t.stripParen = t := by
      intro t ht
      cases t with
      | paren _ _ => cases ht
      | _ => rfl
    rw [hStrip e hParen.1, hStrip p hParen.2]
    exact .bare hParen hSpan hEval
  | paren hInner s => exact hInner

theorem withSpan (h : Tracks e p) (s : Span) : Tracks (e.withSpan s) (p.withSpan s) := by
  cases h with
  | @bare e p hParen hSpan hEval =>
    have hKept : ∀ t : Expr, (t.withSpan s).isParen = t.isParen := by
      intro t
      cases t <;> rfl
    refine .bare ⟨(hKept e).trans hParen.1, (hKept p).trans hParen.2⟩ (by simp) ?_
    intro s' base lookup
    rw [withSpan_withSpan, withSpan_withSpan]
    exact hEval s' base lookup
  | paren hInner s' => exact .paren hInner s

/-- A known value and an operation that evaluates to it. -/
theorem const_binary {op : BinaryOp} {s : Span} (h : op.apply a b = some v)
    (hl : ∀ base lookup, pl.evaluate base lookup = .ok a)
    (hr : ∀ base lookup, pr.evaluate base lookup = .ok b) :
    Tracks (.const v s) (.binary op pl pr s) := by
  refine .bare ⟨rfl, rfl⟩ rfl ?_
  intro s' base lookup
  simp only [Expr.withSpan, evaluate, hl, hr, h]

/-- Two operations on trees that follow each other. -/
theorem binary (op : BinaryOp) (hl : Tracks l pl) (hr : Tracks r pr) (s : Span) :
    Tracks (.binary op l r s) (.binary op pl pr s) := by
  refine .bare ⟨rfl, rfl⟩ rfl ?_
  intro s' base lookup
  simp only [Expr.withSpan, evaluate, hl.evaluate_eq, hr.evaluate_eq, hr.span_eq]

theorem mkUnary (h : Tracks e p) (op : UnaryOp) (s : Span) :
    Tracks (Expr.mkUnary op e s) (.unary op p s) := by
  refine .bare ⟨?_, rfl⟩ ?_ ?_
  · unfold Expr.mkUnary
    split <;> rfl
  · unfold Expr.mkUnary
    split <;> rfl
  · intro s' base lookup
    unfold Expr.mkUnary
    split
    · rename_i v hv
      simp only [Expr.withSpan, evaluate, ← h.evaluate_eq, evaluate_of_value? hv]
    · simp only [Expr.withSpan, evaluate, h.evaluate_eq]

theorem mkBinary? {op : BinaryOp} (hl : Tracks l pl) (hr : Tracks r pr)
    (h : Expr.mkBinary? op l r = some e) : Tracks e (.binary op pl pr (pl.span.hull pr.span)) := by
  unfold Expr.mkBinary? at h
  rw [hl.span_eq, hr.span_eq] at h
  split at h
  · rename_i a b hva hvb
    obtain ⟨v, hv, rfl⟩ := Option.map_eq_some_iff.mp h
    apply const_binary hv
    · intro base lookup
      rw [← hl.evaluate_eq]
      exact evaluate_of_value? hva
    · intro base lookup
      rw [← hr.evaluate_eq]
      exact evaluate_of_value? hvb
  · obtain rfl := Option.some.inj h
    exact binary op hl hr _

theorem mkBinary {op : BinaryOp} (hOp : op.isFallible = false) (hl : Tracks l pl)
    (hr : Tracks r pr) :
    Tracks (Expr.mkBinary op l r) (.binary op pl pr (pl.span.hull pr.span)) :=
  mkBinary? hl hr (mkBinary?_eq_some_mkBinary hOp l r)

/-- A number is followed by itself. -/
theorem const (v : Value) (s : Span) : Tracks (.const v s) (.const v s) :=
  .bare ⟨rfl, rfl⟩ rfl fun _ _ _ => rfl

/-- An operation with a number at the place of its left operand. -/
theorem mkBinary_const {op : BinaryOp} (hOp : op.isFallible = false) (h : Tracks e p) (v : Value) :
    Tracks (Expr.mkBinary op e (.const v e.span)) (.binary op p (.const v p.span) p.span) := by
  have hBoth := mkBinary hOp h (const v e.span)
  rw [h.span_eq] at hBoth ⊢
  have hHull : p.span.hull (Expr.const v p.span).span = p.span := Span.hull_self _
  rwa [hHull] at hBoth

/-- The difference of two addresses, also where it is known because both are in one section. -/
theorem relativeTo {o po : Expr} (h : Tracks e p) (ho : Tracks o po) (adjustment : Value) :
    Tracks (e.relativeTo o adjustment)
      (.binary .subtract p
        (.binary .add po (.const adjustment p.span) (po.span.hull p.span)) p.span) := by
  unfold Expr.relativeTo
  split
  · rename_i target span start span'
    -- The base is in both addresses and drops out of their difference.
    have hSpan : span = p.span := h.span_eq
    refine .bare ⟨rfl, rfl⟩ hSpan ?_
    intro s base lookup
    simp only [Expr.withSpan, evaluate, ← h.evaluate_eq, ← ho.evaluate_eq, BinaryOp.apply]
    congr 1
    grind
  · have hStart : Tracks (Expr.mkBinary .add o (.const adjustment e.span)) _ :=
      mkBinary rfl ho (const adjustment e.span)
    have hDistance : Tracks (Expr.mkBinary .subtract e _) _ := mkBinary rfl h hStart
    have hMoved := hDistance.withSpan e.span
    rw [h.span_eq] at hMoved ⊢
    exact hMoved

theorem mask (h : Tracks e p) (bits : Nat) :
    Tracks (e.mask bits) (.binary .and p (.const (Value.ofNat (2 ^ bits - 1)) p.span) p.span) := by
  unfold Expr.mask
  rw [lowMask_eq]
  exact mkBinary_const rfl h _

theorem offsetBy (h : Tracks e p) (offset : Value) :
    Tracks (e.offsetBy offset)
      (if offset = 0 then p else .binary .add p (.const offset p.span) p.span) := by
  unfold Expr.offsetBy
  split
  · exact h
  · have hSum : Tracks (Expr.mkBinary .add e (.const offset e.span)) _ := mkBinary_const rfl h offset
    have hMoved := hSum.withSpan e.span
    rw [h.span_eq] at hMoved ⊢
    exact hMoved

theorem mkOr (hl : Tracks l pl) (hr : Tracks r pr) :
    Tracks (l.mkOr r) (.binary .or pl pr pl.span) := by
  have hBoth : Tracks (Expr.mkBinary .or l r) _ := mkBinary rfl hl hr
  have hMoved := hBoth.withSpan l.span
  rw [hl.span_eq] at hMoved
  unfold Expr.mkOr
  rw [hl.span_eq]
  exact hMoved

end Tracks

end Expr

-- --------
-- Sequences of operations
-- --------

namespace Build

open CrossAsm.Expr

/-- Whatever is built with folding is folded. -/
theorem folded_folded (b : Build) (e : Expr) (h : b.folded = some e) : e.Folded := by
  induction b generalizing e with
  | const | symbol | counter =>
    obtain rfl := Option.some.inj h
    trivial
  | unary op operand s ih =>
    obtain ⟨o, ho, rfl⟩ := Option.map_eq_some_iff.mp h
    exact (ih o ho).mkUnary op s
  | binary op lhs rhs ihl ihr =>
    obtain ⟨l, hl, h⟩ := Option.bind_eq_some_iff.mp h
    obtain ⟨r, hr, h⟩ := Option.bind_eq_some_iff.mp h
    exact Folded.mkBinary? (ihl l hl) (ihr r hr) h
  | paren inner s ih =>
    obtain ⟨o, ho, rfl⟩ := Option.map_eq_some_iff.mp h
    exact ih o ho
  | strip operand ih =>
    obtain ⟨o, ho, rfl⟩ := Option.map_eq_some_iff.mp h
    exact (ih o ho).stripParen
  | withSpan operand s ih =>
    obtain ⟨o, ho, rfl⟩ := Option.map_eq_some_iff.mp h
    exact (ih o ho).withSpan s
  | mask operand bits ih =>
    obtain ⟨o, ho, rfl⟩ := Option.map_eq_some_iff.mp h
    exact Folded.mkBinary rfl (ih o ho) (.const _ _)
  | shift operand amount ih =>
    obtain ⟨o, ho, rfl⟩ := Option.map_eq_some_iff.mp h
    unfold Expr.shift
    split
    · exact Folded.mkBinary rfl (ih o ho) (.const _ _)
    · exact Folded.mkBinary rfl (ih o ho) (.const _ _)
  | relativeTo target origin adjustment iht iho =>
    obtain ⟨t, ht, h⟩ := Option.bind_eq_some_iff.mp h
    obtain ⟨o, ho, rfl⟩ := Option.map_eq_some_iff.mp h
    unfold Expr.relativeTo
    split
    · trivial
    · have hStart : (Expr.mkBinary .add o (.const adjustment t.span)).Folded :=
        Folded.mkBinary rfl (iho o ho) (.const _ _)
      exact (Folded.mkBinary rfl (iht t ht) hStart).withSpan _
  | offsetBy operand offset ih =>
    obtain ⟨o, ho, rfl⟩ := Option.map_eq_some_iff.mp h
    unfold Expr.offsetBy
    split
    · exact ih o ho
    · exact (Folded.mkBinary rfl (ih o ho) (.const _ _)).withSpan _
  | or lhs rhs ihl ihr =>
    obtain ⟨l, hl, h⟩ := Option.bind_eq_some_iff.mp h
    obtain ⟨r, hr, rfl⟩ := Option.map_eq_some_iff.mp h
    exact (Folded.mkBinary rfl (ihl l hl) (ihr r hr)).withSpan _

/-- Every operation with folding follows the same operation without. -/
theorem folded_tracks (b : Build) (e : Expr) (h : b.folded = some e) : Tracks e b.plain := by
  induction b generalizing e with
  | const v s =>
    obtain rfl := Option.some.inj h
    exact .const v s
  | symbol | counter =>
    obtain rfl := Option.some.inj h
    exact .bare ⟨rfl, rfl⟩ rfl fun _ _ _ => rfl
  | unary op operand s ih =>
    obtain ⟨o, ho, rfl⟩ := Option.map_eq_some_iff.mp h
    exact (ih o ho).mkUnary op s
  | binary op lhs rhs ihl ihr =>
    obtain ⟨l, hl, h⟩ := Option.bind_eq_some_iff.mp h
    obtain ⟨r, hr, h⟩ := Option.bind_eq_some_iff.mp h
    exact Tracks.mkBinary? (ihl l hl) (ihr r hr) h
  | paren inner s ih =>
    obtain ⟨o, ho, rfl⟩ := Option.map_eq_some_iff.mp h
    exact .paren (ih o ho) s
  | strip operand ih =>
    obtain ⟨o, ho, rfl⟩ := Option.map_eq_some_iff.mp h
    exact (ih o ho).stripParen
  | withSpan operand s ih =>
    obtain ⟨o, ho, rfl⟩ := Option.map_eq_some_iff.mp h
    exact (ih o ho).withSpan s
  | mask operand bits ih =>
    obtain ⟨o, ho, rfl⟩ := Option.map_eq_some_iff.mp h
    exact (ih o ho).mask bits
  | shift operand amount ih =>
    obtain ⟨o, ho, rfl⟩ := Option.map_eq_some_iff.mp h
    show Tracks (o.shift amount) (if 0 ≤ amount then _ else _)
    unfold Expr.shift
    split
    · exact Tracks.mkBinary_const rfl (ih o ho) amount
    · exact Tracks.mkBinary_const rfl (ih o ho) (-amount)
  | relativeTo target origin adjustment iht iho =>
    obtain ⟨t, ht, h⟩ := Option.bind_eq_some_iff.mp h
    obtain ⟨o, ho, rfl⟩ := Option.map_eq_some_iff.mp h
    exact (iht t ht).relativeTo (iho o ho) adjustment
  | offsetBy operand offset ih =>
    obtain ⟨o, ho, rfl⟩ := Option.map_eq_some_iff.mp h
    exact (ih o ho).offsetBy offset
  | or lhs rhs ihl ihr =>
    obtain ⟨l, hl, h⟩ := Option.bind_eq_some_iff.mp h
    obtain ⟨r, hr, rfl⟩ := Option.map_eq_some_iff.mp h
    exact (ihl l hl).mkOr (ihr r hr)

/-- The plain reading of an offset is the sum, whatever the offset. -/
theorem evaluate_plain_offsetBy (operand : Build) (offset base : Value)
    (lookup : String → Span → Except Diagnostic Value) :
    (operand.offsetBy offset).plain.evaluate base lookup =
      (operand.plain.evaluate base lookup).map (· + offset) := by
  show (if offset = 0 then operand.plain else _).evaluate base lookup = _
  by_cases hZero : offset = 0
  · rw [if_pos hZero, hZero]
    cases operand.plain.evaluate base lookup with
    | error d => rfl
    | ok v => simp [Except.map]
  · rw [if_neg hZero, evaluate]
    cases operand.plain.evaluate base lookup with
    | error d => rfl
    | ok v => rfl

/--
**Folding keeps the meaning.** An expression built with folding evaluates, at every base and under every
assignment of values or failures to symbols, to what its operations evaluate to without folding; the
failure is the same one, at the same place. (An offset is a sum in that reading, also an offset of
zero.) Building a binary operation fails exactly for a division or
remainder of known values by zero. The value is known exactly if the tree mentions neither a symbol nor
the program counter, and is then its value everywhere.
-/
theorem folding_preserves_evaluation (b : Build) (e : Expr) (h : b.folded = some e) :
    (∀ base lookup, e.evaluate base lookup = b.plain.evaluate base lookup) ∧
    (∀ (operand : Build) offset base lookup, (operand.offsetBy offset).plain.evaluate base lookup =
      (operand.plain.evaluate base lookup).map (· + offset)) ∧
    (∀ op lhs rhs, mkBinary? op lhs rhs = none ↔
      ∃ x y, lhs.value? = some x ∧ rhs.value? = some y ∧ (op = .divide ∨ op = .remainder) ∧ y = 0) ∧
    (e.isConstant = true ↔ e.value?.isSome = true) ∧
    (e.value?.isSome = true ↔ e.isGround = true) ∧
    (∀ v, e.value? = some v → ∀ base lookup, e.evaluate base lookup = .ok v) := by
  refine ⟨(folded_tracks b e h).evaluate_eq, evaluate_plain_offsetBy, mkBinary?_eq_none_iff, ?_, ?_, ?_⟩
  · rw [isSome_value?]
  · rw [(folded_folded b e h).isSome_value?]
  · intro v hv base lookup
    exact evaluate_of_value? hv

/-- The difference of two addresses is folded to `$0E`, the division by a zero in parentheses is not, and
its failure comes out at the parentheses at every base. -/
theorem folding_preserves_evaluation_quotient :
    let distance : Build := .relativeTo (.counter 0x20 ⟨0, 3⟩) (.counter 0x10 ⟨4, 1⟩) 2
    let quotient : Build := .binary .divide (.symbol "size" ⟨6, 4⟩) (.paren (.const 0 ⟨14, 1⟩) ⟨13, 3⟩)
    let e : Expr :=
      .binary .add (.const 0x0e ⟨0, 3⟩)
        (.binary .divide (.symbol "size" ⟨6, 4⟩) (.paren (.const 0 ⟨14, 1⟩) ⟨13, 3⟩) ⟨6, 10⟩) ⟨0, 16⟩
    (Build.binary .add distance quotient).folded = some e ∧ e.isGround = false ∧
      (∀ base lookup, e.evaluate base lookup =
        (Build.binary .add distance quotient).plain.evaluate base lookup) ∧
      (∀ base, e.evaluate base (fun _ _ => .ok 5) = .error (.divisionByZero ⟨13, 3⟩)) := by
  intro distance quotient e
  have hFolded : (Build.binary .add distance quotient).folded = some e := by decide
  have hAll := folding_preserves_evaluation (Build.binary .add distance quotient) e hFolded
  exact ⟨hFolded, rfl, hAll.1, fun _ => rfl⟩

end Build

end CrossAsm
