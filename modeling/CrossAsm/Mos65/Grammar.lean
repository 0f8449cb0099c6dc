import CrossAsm.Mos65.Vocabulary
import CrossAsm.Operand

/-!
# CrossAsm — operand syntax of the 65xx family

Forms are tried in a fixed order. Addresses in parentheses and brackets, and those of bit instructions,
reach only the base page and are made page-relative here; the width of a plain address is left open
unless `<`, `>` or `|` stands in front of it.
-/

namespace CrossAsm.Mos65

/-- The width that stands in front of a plain address. -/
inductive WidthMark where
  | unmarked
  /-- `<`: the base page, by the low byte of the address. -/
  | narrow
  /-- `>` or `|`: a 16-bit address. -/
  | wide
deriving DecidableEq, Repr

/-- Makes an address page-relative where only the base page form exists. A constant has to lie in the
base page; any other address is checked when the program is linked. -/
def pageRelative (machine : Machine Feature) (address : Expr) : Parser Expr :=
  match address.value? with
  | some v =>
    if machine.inBasePage v then pure (address.mask 8)
    else Parser.problem (.outsideBasePage v machine.baseAddress address.span)
  | none => pure (address.offsetBy (-machine.baseAddress))

/-- `A` as a whole operand. -/
def accumulator : Parser (Operand Mode) := do
  let register ← Parser.word "a"
  Parser.atEnd (.bare .accumulator register.span)

/-- `#` and an expression. -/
def immediate (scope : Scope) (request : Request Mode) : Parser (Operand Mode) := do
  let hash ← Parser.advance
  let value ← Expr.parse scope 0 <|> Parser.problem (.loneHash hash.span)
  let word := Mode.immediateWord ∈ request.allowed ∧
    (request.immediate = .word ∨ Mode.immediate ∉ request.allowed)
  return .withValue (if word then .immediateWord else .immediate) value (hash.span.through value.span)

/-- The forms in parentheses. A comma also ends an operand, so an index register is looked for
first. -/
def indirect (scope : Scope) (machine : Machine Feature) : Parser (Operand Mode) := do
  let opening ← Parser.mark .openParen
  let pointer ← Expr.parse scope 0
  match ← Parser.optional (Parser.mark .comma) with
  | some _ =>
    match ← Parser.optional (Parser.word "x") with
    | some _ =>
      let closing ← Parser.mark .closeParen
      Parser.atEnd (.withValue .absoluteIndexedIndirect pointer (opening.span.through closing.span))
    | none =>
      let _ ← Parser.word "sp"
      let _ ← Parser.mark .closeParen
      let _ ← Parser.mark .comma
      let index ← Parser.word "y"
      return .withValue .stackIndirectY pointer (opening.span.through index.span)
  | none =>
    let closing ← Parser.mark .closeParen
    match ← Parser.optional (Parser.mark .comma) with
    | none => Parser.atEnd (.withValue .indirect pointer (opening.span.through closing.span))
    | some _ =>
      match ← Parser.optional (Parser.word "y") with
      | some index =>
        let pointer ← pageRelative machine pointer
        return .withValue .indirectIndexed pointer (opening.span.through index.span)
      | none =>
        let index ← Parser.word "z"
        let pointer ← pageRelative machine pointer
        return .withValue .indirectZ pointer (opening.span.through index.span)

/-- `[zp],Z`, also written `[zp]`. -/
def longIndirect (scope : Scope) (machine : Machine Feature) : Parser (Operand Mode) := do
  let opening ← Parser.mark .openBracket
  let pointer ← Expr.parse scope 0
  let closing ← Parser.mark .closeBracket
  let last ← match ← Parser.optional (Parser.mark .comma) with
    | some _ => Parser.word "z"
    | none => pure closing
  let pointer ← pageRelative machine pointer
  return .withValue .indirectLongZ pointer (opening.span.through last.span)

/-- The bit number of a bit instruction, which the mnemonic may carry. -/
def bitNumber (scope : Scope) (request : Request Mode) (start : Span) : Parser Expr :=
  match request.implied with
  | some n => pure (.const (Value.ofNat n) start)
  | none => do
    let bit ← Expr.parse scope 0
    let _ ← Parser.mark .comma
    return bit

/-- `bit,zp` and `bit,zp,target`. -/
def bitOperand (scope : Scope) (machine : Machine Feature) (request : Request Mode) :
    Parser (Operand Mode) := do
  let start := (← Parser.peek).span
  let bit ← bitNumber scope request start
  let address ← pageRelative machine (← Expr.parse scope 0)
  if Mode.zeroPageBitRelative ∈ request.allowed then
    let _ ← Parser.mark .comma
    let target ← Expr.parse scope 0
    return { mode := .zeroPageBitRelative, values := [bit, address, target],
             span := start.through target.span }
  else
    return { mode := .zeroPageBit, values := [bit, address], span := start.through address.span }

/-- The width in front of a plain address. -/
def widthMark : Parser WidthMark :=
  (do let _ ← Parser.mark .less; return .narrow) <|>
  (do let _ ← Parser.mark .greater <|> Parser.mark .pipe; return .wide) <|>
  pure .unmarked

/-- An index register behind a comma: its wide and narrow modes, and its place. -/
def indexed : Parser (Mode × Mode × Span) := do
  let _ ← Parser.mark .comma
  (do let r ← Parser.word "x"; return (.absoluteX, .zeroPageX, r.span)) <|>
    (do let r ← Parser.word "y"; return (.absoluteY, .zeroPageY, r.span))

/-- An address with a width and an index register, or a branch target. -/
def plain (scope : Scope) (allowed : Modes) : Parser (Operand Mode) := do
  let start := (← Parser.peek).span
  let width ← widthMark
  let value ← Expr.parse scope 0
  if allowed.meets {.relative, .relativeLong} then
    let long := Mode.relative ∉ allowed ∨ (width = .wide ∧ Mode.relativeLong ∈ allowed)
    return { mode := if long then .relativeLong else .relative, values := [value],
             forced := width ≠ .unmarked, span := start.through value.span }
  else
    let (wide, narrow, last) ← indexed <|> pure (.absolute, .zeroPage, value.span)
    let span := start.through last
    return match width with
      | .unmarked => .withValue wide value span
      | .wide => { mode := wide, values := [value], forced := true, span }
      | .narrow => { mode := narrow, values := [value.mask 8], forced := true, span }

/-- The modes in parentheses. -/
def parenthesized : Modes :=
  {.indirect, .zeroPageIndirect, .indexedIndirect, .absoluteIndexedIndirect, .indirectIndexed,
   .indirectZ, .stackIndirectY}

/-- The operand grammar. -/
def grammar (scope : Scope) (machine : Machine Feature) (request : Request Mode) :
    Parser (Operand Mode) :=
  Parser.look fun c =>
    if c.atOperandEnd then Parser.when (request.allowed.has .none) (pure (.bare .none c.peek.span))
    else
      accumulator <|>
      if c.isAt (.mark .hash) then immediate scope request
      else if request.allowed.meets {.zeroPageBit, .zeroPageBitRelative} then
        bitOperand scope machine request
      else
        Parser.when (request.allowed.meets parenthesized) (indirect scope machine) <|>
        Parser.when (request.allowed.has .indirectLongZ) (longIndirect scope machine) <|>
        plain scope request.allowed

end CrossAsm.Mos65
