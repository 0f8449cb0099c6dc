import CrossAsm.Diagnostic
import CrossAsm.Operator
import CrossAsm.Text.Hex

/-!
# CrossAsm — assembly-time expressions

Expressions are folded as they are built: an operation on constants is its result. What stays a tree
depends on a symbol or on the address of relocatable code, and is evaluated when the program is linked.

Parentheses written in the source are kept, also around constants, since operand grammars read them as
indirection.
-/

namespace CrossAsm

/-- An expression tree; every node carries its span. -/
inductive Expr where
  /-- A number, or the result of folding. -/
  | const (value : Value) (span : Span)
  /-- A symbol whose value is not known yet. -/
  | symbol (name : String) (span : Span)
  /-- An address in relocatable code, as an offset from the start of its section. -/
  | counter (offset : Value) (span : Span)
  | unary (op : UnaryOp) (operand : Expr) (span : Span)
  | binary (op : BinaryOp) (lhs rhs : Expr) (span : Span)
  /-- An expression in parentheses. -/
  | paren (inner : Expr) (span : Span)
deriving DecidableEq, Repr

namespace Expr

-- --------
-- Observing a tree
-- --------

/-- The source location of the whole expression. -/
def span : Expr → Span
  | .const _ s | .symbol _ s | .counter _ s | .unary _ _ s | .binary _ _ _ s | .paren _ s => s

/-- The same expression at another location. -/
def withSpan (e : Expr) (s : Span) : Expr :=
  match e with
  | .const v _ => .const v s
  | .symbol name _ => .symbol name s
  | .counter offset _ => .counter offset s
  | .unary op operand _ => .unary op operand s
  | .binary op lhs rhs _ => .binary op lhs rhs s
  | .paren inner _ => .paren inner s

/-- The value, if it is known now. -/
def value? : Expr → Option Value
  | .const v _ => some v
  | .paren inner _ => inner.value?
  | _ => none

/-- Whether the value is known now. -/
def isConstant : Expr → Bool
  | .const .. => true
  | .paren inner _ => inner.isConstant
  | _ => false

/-- Whether the outermost node is a pair of parentheses. -/
def isParen : Expr → Bool
  | .paren .. => true
  | _ => false

/-- The expression inside the outermost parentheses. -/
def stripParen : Expr → Expr
  | .paren inner _ => inner
  | e => e

/-- The symbols of an expression from left to right, with repeats. -/
def symbols : Expr → List String
  | .const .. | .counter .. => []
  | .symbol name _ => [name]
  | .unary _ operand _ => operand.symbols
  | .binary _ lhs rhs _ => lhs.symbols ++ rhs.symbols
  | .paren inner _ => inner.symbols

/-- The text of an expression: numbers in hexadecimal, every binary operation in parentheses. -/
def text : Expr → String
  | .const v _ => Text.hexSigned v
  | .symbol name _ => name
  | .counter offset _ => "(*" ++ offset.signedDecimal ++ ")"
  | .unary op operand _ => op.symbol ++ operand.text
  | .binary op lhs rhs _ => "(" ++ lhs.text ++ " " ++ op.symbol ++ " " ++ rhs.text ++ ")"
  | .paren inner _ => "(" ++ inner.text ++ ")"

-- --------
-- Building with folding
-- --------

/-- Applies a unary operator, folding a constant operand. -/
def mkUnary (op : UnaryOp) (operand : Expr) (span : Span) : Expr :=
  match operand.value? with
  | some v => .const (op.apply v) span
  | none => .unary op operand span

/-- Applies a binary operator, folding constant operands. There is no result for a division of
constants by zero. -/
def mkBinary? (op : BinaryOp) (lhs rhs : Expr) : Option Expr :=
  let span := lhs.span.hull rhs.span
  match lhs.value?, rhs.value? with
  | some a, some b => (op.apply a b).map (.const · span)
  | _, _ => some (.binary op lhs rhs span)

/-- Applies a binary operator that cannot fail, folding constant operands. -/
def mkBinary (op : BinaryOp) (lhs rhs : Expr) : Expr :=
  let span := lhs.span.hull rhs.span
  match lhs.value?, rhs.value? with
  | some a, some b => .const ((op.apply a b).getD 0) span
  | _, _ => .binary op lhs rhs span

/-- Puts an expression into parentheses. -/
def mkParen (inner : Expr) (span : Span) : Expr := .paren inner span

/-- The word whose lowest `bits` bits are set. -/
def lowMask (bits : Nat) : Value :=
  if 64 ≤ bits then -1 else ((1 : Value) <<< Value.ofNat bits) - 1

/-- Keeps the lowest `bits` bits. -/
def mask (e : Expr) (bits : Nat) : Expr := mkBinary .and e (.const (lowMask bits) e.span)

/-- Shifts left by a positive amount, right by a negative one. -/
def shift (e : Expr) (amount : Value) : Expr :=
  if 0 ≤ amount then mkBinary .shiftLeft e (.const amount e.span)
  else mkBinary .shiftRight e (.const (-amount) e.span)

/-- The distance from `origin + adjustment` to this address. Two addresses of the same relocatable
section have a known distance. -/
def relativeTo (e : Expr) (origin : Expr) (adjustment : Value) : Expr :=
  match e, origin with
  | .counter target span, .counter start _ => .const (target - (start + adjustment)) span
  | _, _ =>
    let start := mkBinary .add origin (.const adjustment e.span)
    (mkBinary .subtract e start).withSpan e.span

/-- The expression plus a number. -/
def offsetBy (e : Expr) (offset : Value) : Expr :=
  if offset = 0 then e else (mkBinary .add e (.const offset e.span)).withSpan e.span

/-- The bits of both, for packing fields into an opcode. -/
def mkOr (e other : Expr) : Expr := (mkBinary .or e other).withSpan e.span

/-- Passes everything through but a constant outside `low` to `high`. What is not constant is checked
when the program is linked. -/
def checkRange (e : Expr) (low high : Value) : Except Diagnostic Expr :=
  match e.value? with
  | some v => if v.within low high then .ok e else .error (.valueOutOfRange v low high e.span)
  | none => .ok e

-- --------
-- Evaluation
-- --------

/-- The value of a tree when relocatable code starts at `base` and `lookup` gives the values of
symbols. Operands are evaluated from left to right and the first failure counts. -/
def evaluate (base : Value) (lookup : String → Span → Except Diagnostic Value) :
    Expr → Except Diagnostic Value
  | .const v _ => .ok v
  | .symbol name s => lookup name s
  | .counter offset _ => .ok (base + offset)
  | .paren inner _ => inner.evaluate base lookup
  | .unary op operand _ =>
    match operand.evaluate base lookup with
    | .error d => .error d
    | .ok v => .ok (op.apply v)
  | .binary op lhs rhs _ =>
    match lhs.evaluate base lookup with
    | .error d => .error d
    | .ok a =>
      match rhs.evaluate base lookup with
      | .error d => .error d
      | .ok b =>
        match op.apply a b with
        | some v => .ok v
        | none => .error (.divisionByZero rhs.span)

-- --------
-- Small laws
-- --------

@[simp] theorem span_withSpan (e : Expr) (s : Span) : (e.withSpan s).span = s := by
  cases e <;> rfl

@[simp] theorem value?_withSpan (e : Expr) (s : Span) : (e.withSpan s).value? = e.value? := by
  cases e <;> rfl

/-- A value is known exactly if the expression is constant. -/
theorem isSome_value? (e : Expr) : e.value?.isSome = e.isConstant := by
  induction e with
  | paren inner _ ih => exact ih
  | _ => rfl

end Expr

end CrossAsm
