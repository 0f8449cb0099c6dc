import CrossAsm.Parser
import CrossAsm.Symbol

/-!
# CrossAsm — parsing expressions

Precedence climbing over a cursor. A symbol with a known value is replaced by it; any other name stays
a symbol. An operator whose right operand cannot be read is left unread, since an operand grammar may
give it another meaning. A division of constants by zero is a problem and recognises nothing.

Each of the three functions spends one unit of fuel; two units for every token are enough, since every
second step reads one.
-/

namespace CrossAsm

/-- What an expression can refer to: the symbols defined so far, the address that `*` and `$` stand
for, and the names that are never symbols. -/
structure Scope where
  symbols : SymbolTable
  counter : Expr
  reserved : String → Bool

/-- The unary operator a lexeme stands for in front of an operand. -/
def UnaryOp.ofLexeme? : Lexeme → Option UnaryOp
  | .mark .minus => some .negate
  | .mark .tilde => some .complement
  | .mark .less => some .lowByte
  | .mark .greater => some .highByte
  | _ => none

/-- The binary operator a lexeme stands for between operands. -/
def BinaryOp.ofLexeme? : Lexeme → Option BinaryOp
  | .mark .plus => some .add
  | .mark .minus => some .subtract
  | .mark .star => some .multiply
  | .mark .slash => some .divide
  | .mark .percent => some .remainder
  | .mark .doubleLess => some .shiftLeft
  | .mark .doubleGreater => some .shiftRight
  | .mark .ampersand => some .and
  | .mark .pipe => some .or
  | .mark .caret => some .xor
  | _ => none

namespace Expr

/-- A name that is not reserved: the value of a symbol if it is known, the symbol otherwise. -/
def ofName (scope : Scope) (name : String) (span : Span) : Expr :=
  match scope.symbols.lookup name with
  | .constant v => .const v span
  | .deferred | .undefined => .symbol name span

mutual

/-- An expression whose operators outside parentheses have at least precedence `least`. -/
def parseFrom (scope : Scope) : Nat → Nat → Parser Expr
  | 0, _ => Parser.fail
  | fuel + 1, least => fun c =>
    match parseOperand scope fuel c with
    | ⟨none, problems⟩ => ⟨none, problems⟩
    | ⟨some (lhs, c'), problems⟩ => (parseRest scope fuel least lhs c').after problems

/-- The operators and operands behind `lhs`. -/
def parseRest (scope : Scope) : Nat → Nat → Expr → Parser Expr
  | 0, _, lhs => Parser.pure lhs
  | fuel + 1, least, lhs => fun c =>
    match BinaryOp.ofLexeme? c.peek.lexeme with
    | none => .done lhs c
    | some op =>
      if op.precedence < least then .done lhs c
      else
        match parseFrom scope fuel (op.precedence + 1) c.next with
        | ⟨none, problems⟩ => ⟨some (lhs, c), problems⟩
        | ⟨some (rhs, c'), problems⟩ =>
          match mkBinary? op lhs rhs with
          | none => ⟨none, problems ++ [.divisionByZero c.peek.span]⟩
          | some e => (parseRest scope fuel least e c').after problems

/-- An operand with the unary operators in front of it. A plus sign in front is dropped. -/
def parseOperand (scope : Scope) : Nat → Parser Expr
  | 0 => Parser.fail
  | fuel + 1 => fun c =>
    match c.peek.lexeme with
    | .mark .plus => parseOperand scope fuel c.next
    | .number v => .done (.const v c.peek.span) c.next
    | .identifier name =>
      if scope.reserved name then .nothing else .done (ofName scope name c.peek.span) c.next
    | .mark .star | .mark .dollar => .done (scope.counter.withSpan c.peek.span) c.next
    | .mark .openParen =>
      match parseFrom scope fuel 0 c.next with
      | ⟨none, problems⟩ => ⟨none, problems⟩
      | ⟨some (inner, c'), problems⟩ =>
        match c'.eat? (.mark .closeParen) with
        | none => ⟨none, problems⟩
        | some (close, c'') => ⟨some (mkParen inner (c.peek.span.through close.span), c''), problems⟩
    | l =>
      match UnaryOp.ofLexeme? l with
      | none => .nothing
      | some op =>
        match parseOperand scope fuel c.next with
        | ⟨none, problems⟩ => ⟨none, problems⟩
        | ⟨some (operand, c'), problems⟩ =>
          ⟨some (mkUnary op operand (c.peek.span.through operand.span), c'), problems⟩

end

/-- Parses an expression whose operators outside parentheses have at least precedence `least`. -/
def parse (scope : Scope) (least : Nat) : Parser Expr := fun c =>
  parseFrom scope (2 * c.rest.length + 2) least c

end Expr

end CrossAsm
