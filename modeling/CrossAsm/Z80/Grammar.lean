import CrossAsm.Operand
import CrossAsm.Z80.Register
import CrossAsm.Z80.Vocabulary

/-!
# CrossAsm — operand syntax of the Z80 family

A name of a register or condition is looked for first, then the forms in parentheses; everything else
is an expression. An expression is an address in memory only if it is in parentheses as a whole, so that
`(5)+1` is an immediate.
-/

namespace CrossAsm.Z80

/-- The operand a name stands for. `C` is the register where one is allowed and the condition where only
that is. A register stays a register where none is allowed, to be refused as such. -/
def namedOperand? (allowed : Modes) (name : String) (span : Span) : Option (Operand Mode) :=
  let register := (named? Reg.names name).map (Operand.withRegister Mode.register ·.code span)
  let pair := (named? Pair.names name).map (Operand.withRegister Mode.pair ·.code span)
  let condition := (named? Condition.names name).map (Operand.withRegister Mode.condition ·.code span)
  let index := (named? Index.names name).map (Operand.withRegister Mode.index ·.code span)
  let special := (named? SpecialReg.names name).map (Operand.withRegister Mode.special ·.code span)
  register.filter (·.mode ∈ allowed) <|>
    condition.filter (·.mode ∈ allowed) <|>
    pair.filter (·.mode ∈ allowed) <|>
    index.filter (·.mode ∈ allowed) <|>
    special.filter (·.mode ∈ allowed) <|>
    (if Text.sameWord name "af" then some (.bare .accumulatorFlags span) else none) <|>
    (if Text.sameWord name "af'" then some (.bare .alternateFlags span) else none) <|>
    register <|>
    pair

/-- A name as a whole operand. -/
def named (allowed : Modes) : Parser (Operand Mode) := do
  let token ← Parser.advance
  match token.lexeme.name?.bind (namedOperand? allowed · token.span) with
  | some o => Parser.atEnd o
  | none => Parser.fail

/-- `(BC)`, `(DE)`, `(HL)`, `(SP)` and `(C)`. -/
def registerIndirect : Parser (Operand Mode) := do
  let opening ← Parser.mark .openParen
  let token ← Parser.advance
  let closing ← Parser.mark .closeParen
  let span := opening.span.through closing.span
  match token.lexeme.name? with
  | none => Parser.fail
  | some name =>
    if Text.sameWord name "c" then Parser.atEnd (.bare .ioPortC span)
    else
      match named? Pair.names name with
      | some p => Parser.atEnd (.withRegister .registerIndirect p.code span)
      | none => Parser.fail

/-- The displacement behind an index register: none, or one with its sign. -/
def displacement (scope : Scope) (register : Span) : Parser Expr :=
  Parser.look fun c =>
    if c.isAt (.mark .closeParen) then pure (.const 0 register)
    else if c.isAt (.mark .plus) then do
      let _ ← Parser.advance
      Expr.parse scope 0
    else Parser.when (c.isAt (.mark .minus)) (Expr.parse scope 0)

/-- `(IX)`, `(IX+d)`, `(IX-d)` and the same with IY. -/
def indexed (scope : Scope) : Parser (Operand Mode) := do
  let opening ← Parser.mark .openParen
  let token ← Parser.advance
  match token.lexeme.name?.bind (named? Index.names) with
  | none => Parser.fail
  | some x =>
    let distance ← displacement scope token.span
    let closing ← Parser.mark .closeParen
    Parser.atEnd { mode := .indexed, values := [distance], register := some x.code,
                   span := opening.span.through closing.span }

/-- `(nn)` and `(n)`. -/
def memory (scope : Scope) (allowed : Modes) : Parser (Operand Mode) := do
  let address ← Expr.parse scope 0
  let mode := if Mode.ioPort ∈ allowed then Mode.ioPort else .memory
  if address.isParen then Parser.atEnd (.withValue mode address.stripParen address.span)
  else Parser.fail

/-- An expression: a target where one is allowed, an immediate otherwise. -/
def plain (scope : Scope) (allowed : Modes) : Parser (Operand Mode) := do
  let value ← Expr.parse scope 0
  let mode :=
    if Mode.address ∈ allowed then Mode.address
    else if Mode.relative ∈ allowed then .relative
    else .immediate
  return .withValue mode value value.span

/-- The forms in parentheses. -/
def parenthesized (scope : Scope) (allowed : Modes) : Parser (Operand Mode) :=
  registerIndirect <|>
  Parser.when (allowed.has .indexed) (indexed scope) <|>
  Parser.when (allowed.meets {.memory, .ioPort}) (memory scope allowed)

/-- The operand grammar. -/
def grammar (scope : Scope) (_ : Machine Feature) (request : Request Mode) : Parser (Operand Mode) :=
  Parser.look fun c =>
    if c.atOperandEnd then Parser.when (request.allowed.has .none) (pure (.bare .none c.peek.span))
    else
      named request.allowed <|>
      Parser.when (c.isAt (.mark .openParen)) (parenthesized scope request.allowed) <|>
      plain scope request.allowed

end CrossAsm.Z80
