import CrossAsm.Mos65
import CrossAsm.Proofs.Expr.Parser

/-!
# CrossAsm — how address operands of the 65xx are written

`Spelled` says how an address operand is written, form by form and without the order in which the grammar
tries the forms. `Matched` says what the grammar makes of it before the width of an open address is
settled.

`matched_of_spelled` connects the two. A text can be spelled in two ways only where an address in
parentheses is read as an indirect one, `(address)` or `(address),Y`: its parentheses can be taken for a
part of the expression. Both addresses have the same value then (`Regrouped`).
-/

namespace CrossAsm.Mos65

-- --------
-- Forms
-- --------

/-- The ways of writing an address operand. -/
inductive AddressForm where
  /-- `address` -/
  | plain
  /-- `address,X` -/
  | indexedX
  /-- `address,Y` -/
  | indexedY
  /-- `(address)` -/
  | indirect
  /-- `(address,X)` -/
  | indexedIndirect
  /-- `(address),Y` -/
  | indirectY
  /-- `(address),Z` -/
  | indirectZ
  /-- `[address]` or `[address],Z` -/
  | indirectLong
  /-- `bit,address` -/
  | bit
  /-- `bit,address,target` -/
  | bitRelative
deriving DecidableEq, Repr

namespace AddressForm

/-- The mode with a one-byte address. -/
def narrow : AddressForm → Mode
  | .plain => .zeroPage
  | .indexedX => .zeroPageX
  | .indexedY => .zeroPageY
  | .indirect => .zeroPageIndirect
  | .indexedIndirect => .indexedIndirect
  | .indirectY => .indirectIndexed
  | .indirectZ => .indirectZ
  | .indirectLong => .indirectLongZ
  | .bit => .zeroPageBit
  | .bitRelative => .zeroPageBitRelative

/-- The mode with a two-byte address, where there is one. -/
def wide? : AddressForm → Option Mode
  | .plain => some .absolute
  | .indexedX => some .absoluteX
  | .indexedY => some .absoluteY
  | .indirect => some .indirect
  | .indexedIndirect => some .absoluteIndexedIndirect
  | _ => none

/-- The place of the address among the expressions of the operand. -/
def addressIndex : AddressForm → Nat
  | .bit | .bitRelative => 1
  | _ => 0

end AddressForm

-- --------
-- Spelling
-- --------

/-- The width mark that stands at a cursor, and the cursor behind it. -/
inductive Marked : Cursor → WidthMark → Cursor → Prop
  | unmarked {c} (hLess : c.eat? (.mark .less) = none) (hGreater : c.eat? (.mark .greater) = none)
      (hPipe : c.eat? (.mark .pipe) = none) : Marked c .unmarked c
  | narrow {c c' t} (hMark : c.eat? (.mark .less) = some (t, c')) : Marked c .narrow c'
  | greater {c c' t} (hMark : c.eat? (.mark .greater) = some (t, c')) : Marked c .wide c'
  | pipe {c c' t} (hMark : c.eat? (.mark .pipe) = some (t, c')) : Marked c .wide c'

/-- The bit number in front of an address, unless the mnemonic carries it. -/
inductive Numbered (scope : Scope) : Option Nat → Cursor → Cursor → Prop
  | implied {c n} : Numbered scope (some n) c c
  | written {c c₁ c' bit t} (hBit : Expr.parse scope 0 c = .done bit c₁)
      (hComma : c₁.eat? (.mark .comma) = some (t, c')) : Numbered scope none c c'

/-- The text between two cursors is an address operand of the instruction: its form, its width mark and
its address. Parentheses and brackets make a form only for instructions that have such modes. -/
inductive Spelled (scope : Scope) (m : Mnemonic) (implied : Option Nat) :
    Cursor → AddressForm → WidthMark → Expr → Cursor → Prop
  | plain {c c₁ c₂ mark e} (hBit : ∀ op, m ≠ .bit op) (hMark : Marked c mark c₁)
      (hAddress : Expr.parse scope 0 c₁ = .done e c₂) : Spelled scope m implied c .plain mark e c₂
  | indexedX {c c₂ c₃ c₄ mark e t r} (hPlain : Spelled scope m implied c .plain mark e c₂)
      (hComma : c₂.eat? (.mark .comma) = some (t, c₃)) (hIndex : c₃.eatWord? "x" = some (r, c₄)) :
      Spelled scope m implied c .indexedX mark e c₄
  | indexedY {c c₂ c₃ c₄ mark e t r} (hPlain : Spelled scope m implied c .plain mark e c₂)
      (hComma : c₂.eat? (.mark .comma) = some (t, c₃)) (hIndex : c₃.eatWord? "y" = some (r, c₄)) :
      Spelled scope m implied c .indexedY mark e c₄
  | indirect {c c₁ c₂ c₃ e t t'} (hHas : (entry m).first.meets parenthesized = true)
      (hOpen : c.eat? (.mark .openParen) = some (t, c₁))
      (hAddress : Expr.parse scope 0 c₁ = .done e c₂)
      (hClose : c₂.eat? (.mark .closeParen) = some (t', c₃)) :
      Spelled scope m implied c .indirect .unmarked e c₃
  | indexedIndirect {c c₁ c₂ c₃ c₄ c₅ e t r t' t''}
      (hHas : (entry m).first.meets parenthesized = true)
      (hOpen : c.eat? (.mark .openParen) = some (t, c₁))
      (hAddress : Expr.parse scope 0 c₁ = .done e c₂)
      (hComma : c₂.eat? (.mark .comma) = some (t', c₃)) (hIndex : c₃.eatWord? "x" = some (r, c₄))
      (hClose : c₄.eat? (.mark .closeParen) = some (t'', c₅)) :
      Spelled scope m implied c .indexedIndirect .unmarked e c₅
  | indirectY {c c₃ c₄ c₅ e t r} (hIndirect : Spelled scope m implied c .indirect .unmarked e c₃)
      (hComma : c₃.eat? (.mark .comma) = some (t, c₄)) (hIndex : c₄.eatWord? "y" = some (r, c₅)) :
      Spelled scope m implied c .indirectY .unmarked e c₅
  | indirectZ {c c₃ c₄ c₅ e t r} (hIndirect : Spelled scope m implied c .indirect .unmarked e c₃)
      (hComma : c₃.eat? (.mark .comma) = some (t, c₄)) (hIndex : c₄.eatWord? "z" = some (r, c₅)) :
      Spelled scope m implied c .indirectZ .unmarked e c₅
  | indirectLong {c c₁ c₂ c₃ e t t'} (hHas : Mode.indirectLongZ ∈ (entry m).first)
      (hOpen : c.eat? (.mark .openBracket) = some (t, c₁))
      (hAddress : Expr.parse scope 0 c₁ = .done e c₂)
      (hClose : c₂.eat? (.mark .closeBracket) = some (t', c₃)) :
      Spelled scope m implied c .indirectLong .unmarked e c₃
  | indirectLongZ {c c₁ c₂ c₃ c₄ c₅ e t t' t'' r} (hHas : Mode.indirectLongZ ∈ (entry m).first)
      (hOpen : c.eat? (.mark .openBracket) = some (t, c₁))
      (hAddress : Expr.parse scope 0 c₁ = .done e c₂)
      (hClose : c₂.eat? (.mark .closeBracket) = some (t', c₃))
      (hComma : c₃.eat? (.mark .comma) = some (t'', c₄)) (hIndex : c₄.eatWord? "z" = some (r, c₅)) :
      Spelled scope m implied c .indirectLong .unmarked e c₅
  | bit {c c₁ c₂ e} (op : BitOp) (hOp : m = .bit op) (hMode : op.mode = .zeroPageBit)
      (hNumber : Numbered scope implied c c₁) (hAddress : Expr.parse scope 0 c₁ = .done e c₂) :
      Spelled scope m implied c .bit .unmarked e c₂
  | bitRelative {c c₁ c₂ c₃ c₄ e target t} (op : BitOp) (hOp : m = .bit op)
      (hMode : op.mode = .zeroPageBitRelative) (hNumber : Numbered scope implied c c₁)
      (hAddress : Expr.parse scope 0 c₁ = .done e c₂)
      (hComma : c₂.eat? (.mark .comma) = some (t, c₃))
      (hTarget : Expr.parse scope 0 c₃ = .done target c₄) :
      Spelled scope m implied c .bitRelative .unmarked e c₄

/-- Two ways of reading one text: the parentheses of an indirect address can be taken for a part of the
expression of a direct one. -/
inductive Regrouped (m : Mnemonic) : WidthMark → AddressForm → Expr → AddressForm → Expr → Prop
  | same {mark form e} : Regrouped m mark form e form e
  | indirect {e span} (hHas : (entry m).first.meets parenthesized = true) :
      Regrouped m .unmarked .plain (.paren e span) .indirect e
  | indirectY {e span} (hHas : (entry m).first.meets parenthesized = true) :
      Regrouped m .unmarked .indexedY (.paren e span) .indirectY e

-- --------
-- What the grammar makes of it
-- --------

/-- Mnemonics whose operand is a branch target, and the conditional jumps. -/
def Mnemonic.isTransfer : Mnemonic → Bool
  | .branch _ | .bra | .bsr | .jump _ => true
  | _ => false

/-- An address as an offset in the base page: a known one has to lie there. -/
inductive PageRelative (machine : Machine Feature) (e : Expr) : Expr → Prop
  | known {v} (hValue : e.value? = some v) (hPage : machine.inBasePage v = true) :
      PageRelative machine e (e.mask 8)
  | late (hLate : e.value? = none) : PageRelative machine e (e.offsetBy (-machine.baseAddress))

theorem pageRelative_run (machine : Machine Feature) (e : Expr) (c : Cursor) :
    (∃ a, PageRelative machine e a ∧ pageRelative machine e c = .done a c) ∨
      ∃ d, pageRelative machine e c = ⟨none, [d]⟩ := by
  cases hValue : e.value? with
  | some v =>
    by_cases hPage : machine.inBasePage v = true
    · exact .inl ⟨_, .known hValue hPage, by simp only [pageRelative, hValue, if_pos hPage]; rfl⟩
    · exact .inr ⟨.outsideBasePage v machine.baseAddress e.span,
        by simp only [pageRelative, hValue, if_neg hPage, Parser.problem]⟩
  | none => exact .inl ⟨_, .late hValue, by simp only [pageRelative, hValue]; rfl⟩

/-- The operand that the grammar makes of an address. -/
inductive Matched (machine : Machine Feature) (form : AddressForm) (e : Expr) :
    WidthMark → Operand Mode → Prop
  /-- The width is left open. -/
  | openWidth {o} (hWide : form.wide? = some o.mode) (hForced : o.forced = false) (hValues : o.values = [e]) :
      Matched machine form e .unmarked o
  /-- The form reaches only the base page. -/
  | page {o a} (hWide : form.wide? = none) (hMode : o.mode = form.narrow) (hForced : o.forced = false)
      (hValue : o.values[form.addressIndex]? = some a) (hPage : PageRelative machine e a) :
      Matched machine form e .unmarked o
  | narrow {wide span} (hWide : form.wide? = some wide) : Matched machine form e .narrow
      { mode := form.narrow, values := [e.mask 8], forced := true, span }
  | wide {wide span} (hWide : form.wide? = some wide) : Matched machine form e .wide
      { mode := wide, values := [e], forced := true, span }

-- --------
-- The first token
-- --------

section

variable {scope : Scope} {machine : Machine Feature} {m : Mnemonic} {implied : Option Nat}
  {c c₁ c₂ c₃ c₄ c₅ c' : Cursor} {form : AddressForm} {mark : WidthMark} {e : Expr} {t t' r : Token}

/-- Whether an address operand can start with the lexeme. -/
def opensAddress (l : Lexeme) : Bool :=
  l.startsExpr isReserved || l == .mark .pipe || l == .mark .openBracket

theorem opensAddress_of_parse (hReserved : scope.reserved = isReserved)
    (h : Expr.parse scope 0 c = .done e c') : opensAddress c.peek.lexeme = true := by
  have hStart := Expr.startsExpr_of_parse h
  rw [hReserved] at hStart
  simp [opensAddress, hStart]

theorem opensAddress_of_eat? {k : Mark} (hk : opensAddress (.mark k) = true)
    (h : c.eat? (.mark k) = some (t, c')) : opensAddress c.peek.lexeme = true := by
  rw [(Cursor.eat?_mark_eq_some.mp h).1]
  exact hk

theorem Marked.opensAddress (hMark : Marked c mark c₁) (hReserved : scope.reserved = isReserved)
    (hAddress : Expr.parse scope 0 c₁ = .done e c₂) : opensAddress c.peek.lexeme = true := by
  cases hMark with
  | unmarked _ _ _ => exact opensAddress_of_parse hReserved hAddress
  | narrow hMark => exact opensAddress_of_eat? rfl hMark
  | greater hMark => exact opensAddress_of_eat? rfl hMark
  | pipe hMark => exact opensAddress_of_eat? rfl hMark

theorem Numbered.opensAddress (hNumber : Numbered scope implied c c₁)
    (hReserved : scope.reserved = isReserved) (hAddress : Expr.parse scope 0 c₁ = .done e c₂) :
    opensAddress c.peek.lexeme = true := by
  cases hNumber with
  | implied => exact opensAddress_of_parse hReserved hAddress
  | written hBit _ => exact opensAddress_of_parse hReserved hBit

/-- Such an operand is neither absent nor `A` nor an immediate. -/
theorem grammar_of_opensAddress {request : Request Mode} (h : opensAddress c.peek.lexeme = true) :
    grammar scope machine request c =
      (if request.allowed.meets {.zeroPageBit, .zeroPageBitRelative} then
        bitOperand scope machine request
      else
        Parser.when (request.allowed.meets parenthesized) (indirect scope machine) <|>
        Parser.when (request.allowed.has .indirectLongZ) (longIndirect scope machine) <|>
        plain scope request.allowed) c := by
  have hEnd : c.atOperandEnd = false := by
    unfold Cursor.atOperandEnd
    cases hLexeme : c.peek.lexeme with
    | mark k => cases k <;> simp_all [opensAddress, Lexeme.startsExpr, Lexeme.endsOperand]
    | _ => simp_all [opensAddress, Lexeme.startsExpr, Lexeme.endsOperand]
  have hHash : c.isAt (.mark .hash) = false := by
    unfold Cursor.isAt
    cases hLexeme : c.peek.lexeme with
    | mark k => cases k <;> simp_all [opensAddress, Lexeme.startsExpr, Lexeme.kind]
    | _ => simp_all [opensAddress, Lexeme.startsExpr, Lexeme.kind]
  have hWord : c.eatWord? "a" = none := by
    unfold Cursor.eatWord?
    cases hLexeme : c.peek.lexeme with
    | identifier name =>
      have hFree : isReserved name = false := by
        simpa [hLexeme, opensAddress, Lexeme.startsExpr] using h
      simp_all [Lexeme.name?, isReserved, registers]
    | _ => simp [Lexeme.name?]
  have hAccumulator : accumulator c = .nothing :=
    Parser.bind_of_nothing (Parser.word_of_eatWord?_none hWord)
  show (if c.atOperandEnd then _ else _ : Parser (Operand Mode)) c = _
  rw [if_neg (by simp [hEnd]), Parser.orElse_of_nothing hAccumulator, if_neg (by simp [hHash])]

-- --------
-- Plain addresses
-- --------

theorem widthMark_of_marked (h : Marked c mark c') : widthMark c = .done mark c' := by
  cases h with
  | unmarked hLess hGreater hPipe =>
    unfold widthMark
    rw [Parser.orElse_of_nothing (Parser.bind_of_nothing (Parser.mark_of_eat?_none hLess)),
      Parser.orElse_of_nothing (Parser.bind_of_nothing ?_)]
    · rfl
    · rw [Parser.orElse_of_nothing (Parser.mark_of_eat?_none hGreater)]
      exact Parser.mark_of_eat?_none hPipe
  | narrow hMark =>
    unfold widthMark
    rw [Parser.orElse_of_done]
    exact Parser.bind_of_done (Parser.mark_of_eat? hMark)
  | greater hMark =>
    unfold widthMark
    rw [Parser.orElse_of_nothing, Parser.orElse_of_done]
    · exact Parser.bind_of_done (Parser.orElse_of_done (Parser.mark_of_eat? hMark))
    · exact Parser.bind_of_nothing (Parser.mark_of_eat?_none (Cursor.eat?_eq_none_of_ne hMark nofun))
  | pipe hMark =>
    have hGreater : Parser.mark .greater c = .nothing :=
      Parser.mark_of_eat?_none (Cursor.eat?_eq_none_of_ne hMark nofun)
    unfold widthMark
    rw [Parser.orElse_of_nothing, Parser.orElse_of_done]
    · exact Parser.bind_of_done
        ((Parser.orElse_of_nothing hGreater).trans (Parser.mark_of_eat? hMark))
    · exact Parser.bind_of_nothing (Parser.mark_of_eat?_none (Cursor.eat?_eq_none_of_ne hMark nofun))

/-- A plain address that is no branch target, with the modes of its index register. -/
theorem plain_of_marked {allowed : Modes} (hTarget : allowed.meets {.relative, .relativeLong} = false)
    (hMark : Marked c mark c₁) (hAddress : Expr.parse scope 0 c₁ = .done e c₂) {wide narrow : Mode}
    {last : Span} (hIndex : (indexed <|> pure (.absolute, .zeroPage, e.span)) c₂ =
      .done (wide, narrow, last) c₃) :
    ∃ span, plain scope allowed c = .done (match mark with
      | .unmarked => .withValue wide e span
      | .wide => { mode := wide, values := [e], forced := true, span }
      | .narrow => { mode := narrow, values := [e.mask 8], forced := true, span }) c₃ := by
  refine ⟨c.peek.span.through last, ?_⟩
  unfold plain
  rw [Parser.bind_of_done (show Parser.peek c = .done c.peek c from rfl),
    Parser.bind_of_done (widthMark_of_marked hMark), Parser.bind_of_done hAddress]
  rw [if_neg (by simp [hTarget]), Parser.bind_of_done hIndex]
  cases mark <;> rfl

theorem index_of_end (h : c.atStatementEnd = true) {found : Mode × Mode × Span} :
    (indexed <|> pure found) c = .done found c := by
  rw [Parser.orElse_of_nothing]
  · rfl
  · exact Parser.bind_of_nothing
      (Parser.mark_of_eat?_none (Cursor.eat?_eq_none_of_atStatementEnd h))

theorem index_x (hComma : c.eat? (.mark .comma) = some (t, c₁)) (hIndex : c₁.eatWord? "x" = some (r, c₂))
    {found : Mode × Mode × Span} :
    (indexed <|> pure found) c = .done (.absoluteX, .zeroPageX, r.span) c₂ := by
  refine Parser.orElse_of_done ?_
  unfold indexed
  rw [Parser.bind_of_done (Parser.mark_of_eat? hComma), Parser.orElse_of_done]
  exact Parser.bind_of_done (Parser.word_of_eatWord? hIndex)

theorem index_y (hComma : c.eat? (.mark .comma) = some (t, c₁)) (hIndex : c₁.eatWord? "y" = some (r, c₂))
    {found : Mode × Mode × Span} :
    (indexed <|> pure found) c = .done (.absoluteY, .zeroPageY, r.span) c₂ := by
  refine Parser.orElse_of_done ?_
  unfold indexed
  have hNotX : c₁.eatWord? "x" = none := Cursor.eatWord?_eq_none_of_ne hIndex (by decide +kernel)
  rw [Parser.bind_of_done (Parser.mark_of_eat? hComma),
    Parser.orElse_of_nothing (Parser.bind_of_nothing (Parser.word_of_eatWord?_none hNotX))]
  exact Parser.bind_of_done (Parser.word_of_eatWord? hIndex)

-- --------
-- Addresses in parentheses
-- --------

section Parentheses

variable (hOpen : c.eat? (.mark .openParen) = some (t, c₁))
  (hAddress : Expr.parse scope 0 c₁ = .done e c₂)

include hOpen hAddress

theorem indirect_x {t'' : Token} (hComma : c₂.eat? (.mark .comma) = some (t', c₃))
    (hIndex : c₃.eatWord? "x" = some (r, c₄)) (hClose : c₄.eat? (.mark .closeParen) = some (t'', c₅))
    (hEnd : c₅.atStatementEnd = true) :
    indirect scope machine c =
      .done (.withValue .absoluteIndexedIndirect e (t.span.through t''.span)) c₅ := by
  unfold indirect
  rw [Parser.bind_of_done (Parser.mark_of_eat? hOpen), Parser.bind_of_done hAddress,
    Parser.bind_of_done (Parser.optional_of_done (Parser.mark_of_eat? hComma))]
  dsimp only
  rw [Parser.bind_of_done (Parser.optional_of_done (Parser.word_of_eatWord? hIndex))]
  dsimp only
  rw [Parser.bind_of_done (Parser.mark_of_eat? hClose)]
  exact Parser.atEnd_of_end (Cursor.atOperandEnd_of_atStatementEnd hEnd)

variable (hClose : c₂.eat? (.mark .closeParen) = some (t', c₃))

include hClose

/-- What follows the closing parenthesis. -/
theorem indirect_of_closed :
    indirect scope machine c = (do
      match ← Parser.optional (Parser.mark .comma) with
      | none => Parser.atEnd (.withValue .indirect e (t.span.through t'.span))
      | some _ =>
        match ← Parser.optional (Parser.word "y") with
        | some index =>
          let a ← pageRelative machine e
          return .withValue .indirectIndexed a (t.span.through index.span)
        | none =>
          let index ← Parser.word "z"
          let a ← pageRelative machine e
          return .withValue .indirectZ a (t.span.through index.span) : Parser (Operand Mode)) c₃ := by
  have hNoComma : Parser.mark .comma c₂ = .nothing :=
    Parser.mark_of_eat?_none (Cursor.eat?_eq_none_of_ne hClose nofun)
  unfold indirect
  rw [Parser.bind_of_done (Parser.mark_of_eat? hOpen), Parser.bind_of_done hAddress,
    Parser.bind_of_done (Parser.optional_of_nothing hNoComma)]
  exact Parser.bind_of_done (Parser.mark_of_eat? hClose)

theorem indirect_end (hEnd : c₃.atStatementEnd = true) :
    indirect scope machine c = .done (.withValue .indirect e (t.span.through t'.span)) c₃ := by
  rw [indirect_of_closed hOpen hAddress hClose, Parser.bind_of_done (Parser.optional_of_nothing
    (Parser.mark_of_eat?_none (Cursor.eat?_eq_none_of_atStatementEnd hEnd)))]
  exact Parser.atEnd_of_end (Cursor.atOperandEnd_of_atStatementEnd hEnd)

/-- The expression goes on behind the parenthesis. -/
theorem indirect_inner (hEnd : c₃.atOperandEnd = false) : indirect scope machine c = .nothing := by
  have hNoComma : Parser.mark .comma c₃ = .nothing := by
    refine Parser.mark_of_eat?_none (Cursor.eat?_mark_eq_none fun hLexeme => ?_)
    simp [Cursor.atOperandEnd, hLexeme, Lexeme.endsOperand] at hEnd
  rw [indirect_of_closed hOpen hAddress hClose,
    Parser.bind_of_done (Parser.optional_of_nothing hNoComma)]
  exact Parser.atEnd_of_not_end hEnd

variable {t'' : Token} (hComma : c₃.eat? (.mark .comma) = some (t'', c₄))

include hComma

theorem indirect_y (hIndex : c₄.eatWord? "y" = some (r, c₅)) :
    indirect scope machine c = (pageRelative machine e >>= fun a =>
      pure (.withValue .indirectIndexed a (t.span.through r.span))) c₅ := by
  rw [indirect_of_closed hOpen hAddress hClose,
    Parser.bind_of_done (Parser.optional_of_done (Parser.mark_of_eat? hComma))]
  exact Parser.bind_of_done (Parser.optional_of_done (Parser.word_of_eatWord? hIndex))

theorem indirect_z (hIndex : c₄.eatWord? "z" = some (r, c₅)) :
    indirect scope machine c = (pageRelative machine e >>= fun a =>
      pure (.withValue .indirectZ a (t.span.through r.span))) c₅ := by
  have hNotY : c₄.eatWord? "y" = none := Cursor.eatWord?_eq_none_of_ne hIndex (by decide +kernel)
  rw [indirect_of_closed hOpen hAddress hClose,
    Parser.bind_of_done (Parser.optional_of_done (Parser.mark_of_eat? hComma))]
  dsimp only
  rw [Parser.bind_of_done (Parser.optional_of_nothing (Parser.word_of_eatWord?_none hNotY))]
  exact Parser.bind_of_done (Parser.word_of_eatWord? hIndex)

/-- The parentheses belong to the expression of an indexed address. -/
theorem indirect_indexedX (hIndex : c₄.eatWord? "x" = some (r, c₅)) :
    indirect scope machine c = .nothing := by
  have hNotY : c₄.eatWord? "y" = none := Cursor.eatWord?_eq_none_of_ne hIndex (by decide +kernel)
  have hNotZ : c₄.eatWord? "z" = none := Cursor.eatWord?_eq_none_of_ne hIndex (by decide +kernel)
  rw [indirect_of_closed hOpen hAddress hClose,
    Parser.bind_of_done (Parser.optional_of_done (Parser.mark_of_eat? hComma))]
  dsimp only
  rw [Parser.bind_of_done (Parser.optional_of_nothing (Parser.word_of_eatWord?_none hNotY))]
  exact Parser.bind_of_nothing (Parser.word_of_eatWord?_none hNotZ)

end Parentheses

-- --------
-- Addresses in brackets, and bit operands
-- --------

section Brackets

variable (hOpen : c.eat? (.mark .openBracket) = some (t, c₁))
  (hAddress : Expr.parse scope 0 c₁ = .done e c₂)
  (hClose : c₂.eat? (.mark .closeBracket) = some (t', c₃))

include hOpen hAddress hClose

theorem longIndirect_end (hEnd : c₃.atStatementEnd = true) :
    longIndirect scope machine c = (pageRelative machine e >>= fun a =>
      pure (.withValue .indirectLongZ a (t.span.through t'.span))) c₃ := by
  have hNoComma : Parser.mark .comma c₃ = .nothing :=
    Parser.mark_of_eat?_none (Cursor.eat?_eq_none_of_atStatementEnd hEnd)
  unfold longIndirect
  rw [Parser.bind_of_done (Parser.mark_of_eat? hOpen), Parser.bind_of_done hAddress,
    Parser.bind_of_done (Parser.mark_of_eat? hClose),
    Parser.bind_of_done (Parser.optional_of_nothing hNoComma)]
  rfl

theorem longIndirect_z {t'' : Token} (hComma : c₃.eat? (.mark .comma) = some (t'', c₄))
    (hIndex : c₄.eatWord? "z" = some (r, c₅)) :
    longIndirect scope machine c = (pageRelative machine e >>= fun a =>
      pure (.withValue .indirectLongZ a (t.span.through r.span))) c₅ := by
  unfold longIndirect
  rw [Parser.bind_of_done (Parser.mark_of_eat? hOpen), Parser.bind_of_done hAddress,
    Parser.bind_of_done (Parser.mark_of_eat? hClose),
    Parser.bind_of_done (Parser.optional_of_done (Parser.mark_of_eat? hComma))]
  exact Parser.bind_of_done (Parser.word_of_eatWord? hIndex)

end Brackets

theorem bitNumber_of_numbered (request : Request Mode) (start : Span)
    (h : Numbered scope request.implied c c') : ∃ bit, bitNumber scope request start c = .done bit c' := by
  unfold bitNumber
  cases hImplied : request.implied with
  | some n =>
    rw [hImplied] at h
    cases h
    exact ⟨_, rfl⟩
  | none =>
    rw [hImplied] at h
    cases h with
    | @written _ c₁ _ bit t hBit hComma =>
      refine ⟨bit, ?_⟩
      dsimp only
      rw [Parser.bind_of_done hBit, Parser.bind_of_done (Parser.mark_of_eat? hComma)]
      rfl

-- --------
-- Which part of the grammar reads an operand
-- --------

theorem meets_bit_eq_false (hBit : ∀ op, m ≠ .bit op) :
    (entry m).first.meets {.zeroPageBit, .zeroPageBitRelative} = false := by
  have hAll : ∀ m ∈ Mnemonic.all, (entry m).first.meets {.zeroPageBit, .zeroPageBitRelative} = true →
      ∃ op ∈ BitOp.all, m = .bit op := by decide +kernel
  refine Bool.eq_false_iff.mpr fun hMeets => ?_
  obtain ⟨op, -, hOp⟩ := hAll m (Mnemonic.mem_all m) hMeets
  exact hBit op hOp

theorem meets_relative_eq_false (hTransfer : m.isTransfer = false) :
    (entry m).first.meets {.relative, .relativeLong} = false := by
  have hAll : ∀ m ∈ Mnemonic.all, m.isTransfer = false →
      (entry m).first.meets {.relative, .relativeLong} = false := by decide +kernel
  exact hAll m (Mnemonic.mem_all m) hTransfer

theorem ne_bit_of_parenthesized (hHas : (entry m).first.meets parenthesized = true) (op : BitOp) :
    m ≠ .bit op := by
  rintro rfl
  cases op <;> revert hHas <;> decide

theorem ne_bit_of_long (hHas : Mode.indirectLongZ ∈ (entry m).first) (op : BitOp) : m ≠ .bit op := by
  rintro rfl
  cases op <;> revert hHas <;> decide

/-- No other mark stands where a width mark does. -/
theorem Marked.eq_of_eat? {k : Mark} (hMark : Marked c mark c₁)
    (hk : k ≠ .less ∧ k ≠ .greater ∧ k ≠ .pipe) (h : c.eat? (.mark k) = some (t, c₂)) :
    mark = .unmarked ∧ c₁ = c := by
  cases hMark with
  | unmarked => exact ⟨rfl, rfl⟩
  | narrow hMark =>
    rw [Cursor.eat?_eq_none_of_ne hMark hk.1.symm] at h
    cases h
  | greater hMark =>
    rw [Cursor.eat?_eq_none_of_ne hMark hk.2.1.symm] at h
    cases h
  | pipe hMark =>
    rw [Cursor.eat?_eq_none_of_ne hMark hk.2.2.symm] at h
    cases h

/-- A plain address is not in brackets. -/
theorem longIndirect_of_plain (hMark : Marked c mark c₁)
    (hAddress : Expr.parse scope 0 c₁ = .done e c₂) : longIndirect scope machine c = .nothing := by
  refine Parser.bind_of_nothing (Parser.mark_of_eat?_none ?_)
  cases hOpen : c.eat? (.mark .openBracket) with
  | none => rfl
  | some opening =>
    obtain ⟨-, rfl⟩ := hMark.eq_of_eat? (by decide) hOpen
    have hStart := Expr.startsExpr_of_parse hAddress
    rw [(Cursor.eat?_mark_eq_some.mp hOpen).1] at hStart
    cases hStart

/-- Behind an opening parenthesis stands an indirect address, if the instruction has such modes. -/
theorem grammar_of_openParen (hHas : (entry m).first.meets parenthesized = true)
    (hOpen : c.eat? (.mark .openParen) = some (t, c₁)) :
    ∃ q, grammar scope machine ⟨(entry m).first, (entry m).immediate, implied⟩ c =
      (indirect scope machine <|> q) c := by
  rw [grammar_of_opensAddress (opensAddress_of_eat? rfl hOpen),
    if_neg (by simp [meets_bit_eq_false (ne_bit_of_parenthesized hHas)]), hHas]
  exact ⟨_, rfl⟩

theorem grammar_of_openBracket (hHas : Mode.indirectLongZ ∈ (entry m).first)
    (hOpen : c.eat? (.mark .openBracket) = some (t, c₁)) :
    ∃ q, grammar scope machine ⟨(entry m).first, (entry m).immediate, implied⟩ c =
      (longIndirect scope machine <|> q) c := by
  have hIndirect : indirect scope machine c = .nothing :=
    Parser.bind_of_nothing (Parser.mark_of_eat?_none (Cursor.eat?_eq_none_of_ne hOpen nofun))
  rw [grammar_of_opensAddress (opensAddress_of_eat? rfl hOpen),
    if_neg (by simp [meets_bit_eq_false (ne_bit_of_long hHas)]),
    Parser.orElse_of_nothing (Parser.when_of_nothing fun _ => hIndirect),
    show (entry m).first.has .indirectLongZ = true from hHas]
  exact ⟨_, rfl⟩

theorem grammar_of_numbered {op : BitOp} (hReserved : scope.reserved = isReserved)
    (hNumber : Numbered scope implied c c₁) (hAddress : Expr.parse scope 0 c₁ = .done e c₂) :
    grammar scope machine ⟨(entry (.bit op)).first, (entry (.bit op)).immediate, implied⟩ c =
      bitOperand scope machine ⟨(entry (.bit op)).first, (entry (.bit op)).immediate, implied⟩ c := by
  rw [grammar_of_opensAddress (hNumber.opensAddress hReserved hAddress), if_pos]
  cases op <;> rfl

/-- Whatever is not read as an indirect address is a plain one. -/
theorem grammar_of_marked (hReserved : scope.reserved = isReserved) (hBit : ∀ op, m ≠ .bit op)
    (hMark : Marked c mark c₁) (hAddress : Expr.parse scope 0 c₁ = .done e c₂)
    (hDirect : (entry m).first.meets parenthesized = true → indirect scope machine c = .nothing) :
    grammar scope machine ⟨(entry m).first, (entry m).immediate, implied⟩ c =
      plain scope (entry m).first c := by
  have hLong : longIndirect scope machine c = .nothing := longIndirect_of_plain hMark hAddress
  rw [grammar_of_opensAddress (hMark.opensAddress hReserved hAddress),
    if_neg (by simp [meets_bit_eq_false hBit]),
    Parser.orElse_of_nothing (Parser.when_of_nothing hDirect),
    Parser.orElse_of_nothing (Parser.when_of_nothing fun _ => hLong)]

variable (machine m) in
/-- A plain address is read as an indirect one only if it is an expression in parentheses and nothing
else. -/
theorem indirect_of_marked (hMark : Marked c mark c₁) (hAddress : Expr.parse scope 0 c₁ = .done e c₂) :
    ((entry m).first.meets parenthesized = true → indirect scope machine c = .nothing) ∨
      ∃ t c₀ inner mid t', mark = .unmarked ∧ (entry m).first.meets parenthesized = true ∧
        c.eat? (.mark .openParen) = some (t, c₀) ∧ Expr.parse scope 0 c₀ = .done inner mid ∧
        mid.eat? (.mark .closeParen) = some (t', c₂) ∧ e = .paren inner (t.span.through t'.span) := by
  by_cases hHas : (entry m).first.meets parenthesized = true
  · by_cases hParen : c.eat? (.mark .openParen) = none
    · exact .inl fun _ => Parser.bind_of_nothing (Parser.mark_of_eat?_none hParen)
    · obtain ⟨⟨t, c₀⟩, hOpen⟩ := Option.ne_none_iff_exists'.mp hParen
      obtain ⟨hUnmarked, rfl⟩ := hMark.eq_of_eat? (by decide) hOpen
      obtain ⟨inner, mid, t', c₃, hInner, hClose, hSame⟩ := Expr.paren_of_parse hOpen hAddress
      by_cases hEnd : c₃.atOperandEnd = true
      · have hLast : BinaryOp.ofLexeme? c₃.peek.lexeme = none := by
          unfold Cursor.atOperandEnd at hEnd
          cases hLexeme : c₃.peek.lexeme with
          | mark k => cases k <;> simp_all [Lexeme.endsOperand, BinaryOp.ofLexeme?]
          | _ => rfl
        obtain ⟨rfl, rfl⟩ := hSame hLast
        exact .inr ⟨t, c₀, inner, mid, t', hUnmarked, hHas, hOpen, hInner, hClose, rfl⟩
      · exact .inl fun _ => indirect_inner hOpen hInner hClose (Bool.eq_false_iff.mpr hEnd)
  · exact .inl fun h => absurd h hHas

-- --------
-- From spelling to operands
-- --------

/-- An address outside the base page is a problem, whatever else the text could be. -/
theorem page_of_orElse {p q : Parser (Operand Mode)} {mk : Expr → Operand Mode} {o : Operand Mode}
    (hp : p c = (pageRelative machine e >>= fun a => pure (mk a)) c₁)
    (hRun : (p <|> q) c = .done o c') : ∃ a, PageRelative machine e a ∧ o = mk a := by
  obtain ⟨a, hPage, hDone⟩ | ⟨d, hProblem⟩ := pageRelative_run machine e c₁
  · rw [Parser.bind_of_done hDone] at hp
    rw [Parser.orElse_of_done hp] at hRun
    exact ⟨a, hPage, (Parser.done_eq_done.mp hRun).1.symm⟩
  · have hFailed : p c = ⟨none, [d]⟩ := by
      rw [hp]
      show Parser.bind _ _ _ = _
      simp only [Parser.bind, hProblem]
    have hAfter : (p <|> q) c = (q c).after [d] := by
      show Parser.orElse _ _ _ = _
      simp only [Parser.orElse, hFailed]
    rw [hAfter] at hRun
    cases (Parser.after_eq_done.mp hRun).1

theorem page_of_bitOperand {request : Request Mode} {o : Operand Mode}
    (hNumber : Numbered scope request.implied c c₁) (hAddress : Expr.parse scope 0 c₁ = .done e c₂)
    (hRun : bitOperand scope machine request c = .done o c') :
    ∃ bit a others span, PageRelative machine e a ∧
      o = { mode := if Mode.zeroPageBitRelative ∈ request.allowed then .zeroPageBitRelative
                    else .zeroPageBit
            values := bit :: a :: others
            span } := by
  obtain ⟨bit, hBit⟩ := bitNumber_of_numbered request c.peek.span hNumber
  unfold bitOperand at hRun
  rw [Parser.bind_of_done (show Parser.peek c = .done c.peek c from rfl), Parser.bind_of_done hBit,
    Parser.bind_of_done hAddress] at hRun
  obtain ⟨a, hPage, hDone⟩ | ⟨d, hProblem⟩ := pageRelative_run machine e c₂
  · rw [Parser.bind_of_done hDone] at hRun
    by_cases hRelative : Mode.zeroPageBitRelative ∈ request.allowed
    · rw [if_pos hRelative] at hRun
      obtain ⟨t, c₃, -, hRest⟩ := Parser.bind_eq_done.mp hRun
      obtain ⟨target, c₄, -, hLast⟩ := Parser.bind_eq_done.mp hRest
      obtain ⟨rfl, -⟩ := Parser.pure_eq_done.mp hLast
      exact ⟨bit, a, [target], _, hPage, by rw [if_pos hRelative]⟩
    · rw [if_neg hRelative] at hRun
      obtain ⟨rfl, -⟩ := Parser.pure_eq_done.mp hRun
      exact ⟨bit, a, [], _, hPage, by rw [if_neg hRelative]⟩
  · obtain ⟨a, mid, hDone, -⟩ := Parser.bind_eq_done.mp hRun
    rw [hProblem] at hDone
    cases hDone

section Operands

variable {o : Operand Mode} {stop : Cursor}
  (hRun : grammar scope machine ⟨(entry m).first, (entry m).immediate, implied⟩ c = .done o stop)

include hRun

theorem matched_of_marked {wide narrow : Mode} {last : Span} (hReserved : scope.reserved = isReserved)
    (hTransfer : m.isTransfer = false) (hBit : ∀ op, m ≠ .bit op) (hMark : Marked c mark c₁)
    (hAddress : Expr.parse scope 0 c₁ = .done e c₂)
    (hIndex : (indexed <|> pure (.absolute, .zeroPage, e.span)) c₂ = .done (wide, narrow, last) c₃)
    (hWide : form.wide? = some wide) (hNarrow : form.narrow = narrow)
    (hDirect : (entry m).first.meets parenthesized = true → indirect scope machine c = .nothing) :
    Matched machine form e mark o := by
  obtain ⟨span, hPlain⟩ := plain_of_marked (meets_relative_eq_false hTransfer) hMark hAddress hIndex
  rw [grammar_of_marked hReserved hBit hMark hAddress hDirect, hPlain] at hRun
  obtain ⟨rfl, -⟩ := Parser.done_eq_done.mp hRun
  subst hNarrow
  cases mark with
  | unmarked => exact .openWidth hWide rfl rfl
  | narrow => exact .narrow hWide
  | wide => exact .wide hWide

variable (hHas : (entry m).first.meets parenthesized = true)
  (hOpen : c.eat? (.mark .openParen) = some (t, c₁)) (hAddress : Expr.parse scope 0 c₁ = .done e c₂)

include hHas hOpen hAddress

theorem matched_indirect (hClose : c₂.eat? (.mark .closeParen) = some (t', c₃))
    (hEnd : c₃.atStatementEnd = true) : Matched machine .indirect e .unmarked o := by
  obtain ⟨q, hGrammar⟩ := grammar_of_openParen hHas hOpen
  rw [hGrammar, Parser.orElse_of_done (indirect_end hOpen hAddress hClose hEnd)] at hRun
  obtain ⟨rfl, -⟩ := Parser.done_eq_done.mp hRun
  exact .openWidth rfl rfl rfl

theorem matched_indirectY {t'' : Token} (hClose : c₂.eat? (.mark .closeParen) = some (t', c₃))
    (hComma : c₃.eat? (.mark .comma) = some (t'', c₄)) (hIndex : c₄.eatWord? "y" = some (r, c₅)) :
    Matched machine .indirectY e .unmarked o := by
  obtain ⟨q, hGrammar⟩ := grammar_of_openParen hHas hOpen
  rw [hGrammar] at hRun
  obtain ⟨a, hPage, rfl⟩ := page_of_orElse (indirect_y hOpen hAddress hClose hComma hIndex) hRun
  exact .page rfl rfl rfl rfl hPage

end Operands

/-- **What the grammar makes of an address operand**, in the form in which it reads it. -/
theorem matched_of_spelled {o : Operand Mode} {stop : Cursor} (hReserved : scope.reserved = isReserved)
    (hTransfer : m.isTransfer = false) (hText : Spelled scope m implied c form mark e c')
    (hEnd : c'.atStatementEnd = true)
    (hRun : grammar scope machine ⟨(entry m).first, (entry m).immediate, implied⟩ c = .done o stop) :
    ∃ form₀ e₀, Regrouped m mark form e form₀ e₀ ∧ Matched machine form₀ e₀ mark o := by
  cases hText with
  | plain hBit hMark hAddress =>
    obtain hDirect | ⟨t, c₀, inner, mid, t', rfl, hHas, hOpen, hInner, hClose, rfl⟩ :=
      indirect_of_marked machine m hMark hAddress
    · exact ⟨.plain, e, .same, matched_of_marked hRun hReserved hTransfer hBit hMark hAddress
        (index_of_end hEnd) rfl rfl hDirect⟩
    · exact ⟨.indirect, inner, .indirect hHas, matched_indirect hRun hHas hOpen hInner hClose hEnd⟩
  | indexedX hPlain hComma hIndex =>
    cases hPlain with
    | plain hBit hMark hAddress =>
      refine ⟨.indexedX, e, .same, matched_of_marked hRun hReserved hTransfer hBit hMark hAddress
        (index_x hComma hIndex) rfl rfl ?_⟩
      -- There is no form `(address),X`.
      obtain hDirect | ⟨t, c₀, inner, mid, t', rfl, hHas, hOpen, hInner, hClose, rfl⟩ :=
        indirect_of_marked machine m hMark hAddress
      · exact hDirect
      · exact fun _ => indirect_indexedX hOpen hInner hClose hComma hIndex
  | indexedY hPlain hComma hIndex =>
    cases hPlain with
    | plain hBit hMark hAddress =>
      obtain hDirect | ⟨t, c₀, inner, mid, t', rfl, hHas, hOpen, hInner, hClose, rfl⟩ :=
        indirect_of_marked machine m hMark hAddress
      · exact ⟨.indexedY, e, .same, matched_of_marked hRun hReserved hTransfer hBit hMark hAddress
          (index_y hComma hIndex) rfl rfl hDirect⟩
      · exact ⟨.indirectY, inner, .indirectY hHas,
          matched_indirectY hRun hHas hOpen hInner hClose hComma hIndex⟩
  | indirect hHas hOpen hAddress hClose =>
    exact ⟨.indirect, e, .same, matched_indirect hRun hHas hOpen hAddress hClose hEnd⟩
  | indexedIndirect hHas hOpen hAddress hComma hIndex hClose =>
    obtain ⟨q, hGrammar⟩ := grammar_of_openParen hHas hOpen
    rw [hGrammar,
      Parser.orElse_of_done (indirect_x hOpen hAddress hComma hIndex hClose hEnd)] at hRun
    obtain ⟨rfl, -⟩ := Parser.done_eq_done.mp hRun
    exact ⟨.indexedIndirect, e, .same, .openWidth rfl rfl rfl⟩
  | indirectY hIndirect hComma hIndex =>
    cases hIndirect with
    | indirect hHas hOpen hAddress hClose =>
      exact ⟨.indirectY, e, .same,
        matched_indirectY hRun hHas hOpen hAddress hClose hComma hIndex⟩
  | indirectZ hIndirect hComma hIndex =>
    cases hIndirect with
    | indirect hHas hOpen hAddress hClose =>
      obtain ⟨q, hGrammar⟩ := grammar_of_openParen hHas hOpen
      rw [hGrammar] at hRun
      obtain ⟨a, hPage, rfl⟩ := page_of_orElse (indirect_z hOpen hAddress hClose hComma hIndex) hRun
      exact ⟨.indirectZ, e, .same, .page rfl rfl rfl rfl hPage⟩
  | indirectLong hHas hOpen hAddress hClose =>
    obtain ⟨q, hGrammar⟩ := grammar_of_openBracket hHas hOpen
    rw [hGrammar] at hRun
    obtain ⟨a, hPage, rfl⟩ := page_of_orElse (longIndirect_end hOpen hAddress hClose hEnd) hRun
    exact ⟨.indirectLong, e, .same, .page rfl rfl rfl rfl hPage⟩
  | indirectLongZ hHas hOpen hAddress hClose hComma hIndex =>
    obtain ⟨q, hGrammar⟩ := grammar_of_openBracket hHas hOpen
    rw [hGrammar] at hRun
    obtain ⟨a, hPage, rfl⟩ :=
      page_of_orElse (longIndirect_z hOpen hAddress hClose hComma hIndex) hRun
    exact ⟨.indirectLong, e, .same, .page rfl rfl rfl rfl hPage⟩
  | bit op hOp hMode hNumber hAddress =>
    subst hOp
    rw [grammar_of_numbered hReserved hNumber hAddress] at hRun
    obtain ⟨bit, a, others, span, hPage, rfl⟩ := page_of_bitOperand hNumber hAddress hRun
    have hRelative : Mode.zeroPageBitRelative ∉ (entry (.bit op)).first := by
      rw [entry, hMode]
      decide
    exact ⟨.bit, e, .same, .page rfl (if_neg hRelative) rfl rfl hPage⟩
  | bitRelative op hOp hMode hNumber hAddress hComma hTarget =>
    subst hOp
    rw [grammar_of_numbered hReserved hNumber hAddress] at hRun
    obtain ⟨bit, a, others, span, hPage, rfl⟩ := page_of_bitOperand hNumber hAddress hRun
    have hRelative : Mode.zeroPageBitRelative ∈ (entry (.bit op)).first := by
      rw [entry, hMode]
      decide
    exact ⟨.bitRelative, e, .same, .page rfl (if_pos hRelative) rfl rfl hPage⟩

end

end CrossAsm.Mos65
