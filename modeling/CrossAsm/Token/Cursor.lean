import CrossAsm.Text.Case
import CrossAsm.Token

/-!
# CrossAsm — token cursors

A cursor is a place in a list of tokens: the tokens still to be read and the end of the source. Reading
gives a new cursor, so going back is using the old one.
-/

namespace CrossAsm

/-- The tokens still to be read, and the byte length of the source behind them. -/
structure Cursor where
  rest : List Token
  stop : Nat
deriving DecidableEq, Repr

namespace Cursor

/-- The token that stands behind all others. -/
def endToken (c : Cursor) : Token := ⟨.endOfInput, ⟨c.stop, 0⟩⟩

/-- The current token. Behind the last one this is always the end of the input. -/
def peek (c : Cursor) : Token :=
  match c.rest with
  | [] => c.endToken
  | t :: _ => t

/-- The token `n` places behind the current one. -/
def peekAt (c : Cursor) (n : Nat) : Token := c.rest[n]?.getD c.endToken

/-- The cursor behind the current token. At the end it stays where it is. -/
def next (c : Cursor) : Cursor := { c with rest := c.rest.tail }

/-- Whether the current token is of the given kind. -/
def isAt (c : Cursor) (k : Kind) : Bool := c.peek.lexeme.kind == k

/-- The current token and the cursor behind it, if it is of the given kind. -/
def eat? (c : Cursor) (k : Kind) : Option (Token × Cursor) :=
  if c.isAt k then some (c.peek, c.next) else none

/-- The current token and the cursor behind it, if it is the given word in any letter case. -/
def eatWord? (c : Cursor) (word : String) : Option (Token × Cursor) :=
  match c.peek.lexeme.name? with
  | some name => if Text.sameWord name word then some (c.peek, c.next) else none
  | none => none

/-- Whether the current token ends an operand. -/
def atOperandEnd (c : Cursor) : Bool := c.peek.lexeme.endsOperand

/-- Whether the current token ends the statement. -/
def atStatementEnd (c : Cursor) : Bool := c.peek.lexeme.endsStatement

/-- Whether all tokens have been read. -/
def isExhausted (c : Cursor) : Bool := c.rest.isEmpty

/-- The cursor at the end of the current statement, in front of its newline. -/
def skipStatement (c : Cursor) : Cursor :=
  { c with rest := c.rest.dropWhile fun t => !t.lexeme.endsStatement }

/-- The span from the current token to the last one in front of the first that `ends`; the current
token's own span if that is the first. -/
def spanUntil (c : Cursor) (ends : Lexeme → Bool) : Span :=
  let start := c.peek.span
  match (c.rest.takeWhile fun t => !ends t.lexeme).getLast? with
  | none => start.through start
  | some t => start.through t.span

/-- The span of the tokens up to the end of the operand. -/
def operandSpan (c : Cursor) : Span := c.spanUntil Lexeme.endsOperand

/-- The span of the tokens up to the end of the statement. -/
def statementSpan (c : Cursor) : Span := c.spanUntil Lexeme.endsStatement

end Cursor

end CrossAsm
