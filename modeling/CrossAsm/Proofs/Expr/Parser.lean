import CrossAsm.Expr.Parser
import CrossAsm.Proofs.Parser

/-!
# CrossAsm — where expressions start, and expressions in parentheses

Operand grammars look at the first token to choose a form, and several of their forms begin with an
expression. The lemmas say which tokens begin one, and what an expression in parentheses is read as.
-/

namespace CrossAsm

/-- Whether an expression can start with the lexeme. -/
def Lexeme.startsExpr (reserved : String → Bool) : Lexeme → Bool
  | .number _ => true
  | .identifier name => !reserved name
  | .mark m =>
    m ∈ [Mark.plus, .minus, .tilde, .less, .greater, .star, .dollar, .openParen]
  | _ => false

namespace Expr

variable {scope : Scope} {least : Nat} {c c' : Cursor} {e : Expr}

/-- At any other lexeme nothing is read. -/
theorem parseOperand_of_not_startsExpr {fuel : Nat}
    (h : c.peek.lexeme.startsExpr scope.reserved = false) : parseOperand scope fuel c = .nothing := by
  cases fuel with
  | zero => rfl
  | succ fuel =>
    obtain ⟨tokens, stop⟩ := c
    cases tokens with
    | nil => rfl
    | cons t rest =>
      obtain ⟨lexeme, span⟩ := t
      cases lexeme with
      | number v => cases h
      | identifier name =>
        have hReserved : scope.reserved name = true := by simpa [Cursor.peek, Lexeme.startsExpr] using h
        exact if_pos hReserved
      | mark m =>
        cases m with
        | plus | minus | tilde | less | greater | star | dollar | openParen => cases h
        | _ => rfl
      | text content => rfl
      | newline => rfl
      | endOfInput => rfl

theorem startsExpr_of_parse (h : parse scope least c = .done e c') :
    c.peek.lexeme.startsExpr scope.reserved = true := by
  by_cases hStart : c.peek.lexeme.startsExpr scope.reserved = true
  · exact hStart
  · have hNothing : parseOperand scope (2 * c.rest.length + 1) c = .nothing :=
      parseOperand_of_not_startsExpr (Bool.eq_false_iff.mpr hStart)
    unfold parse parseFrom at h
    rw [hNothing] at h
    cases h

/-- The tokens in front of which the operators of an expression end. -/
theorem parseRest_of_not_operator {fuel : Nat} {lhs : Expr}
    (h : BinaryOp.ofLexeme? c.peek.lexeme = none) : parseRest scope fuel least lhs c = .done lhs c := by
  cases fuel with
  | zero => rfl
  | succ fuel => simp only [parseRest, h]

theorem parseOperand_openParen {t : Token} {c₁ : Cursor}
    (hOpen : c.eat? (.mark .openParen) = some (t, c₁)) (fuel : Nat) :
    parseOperand scope (fuel + 1) c =
      match parseFrom scope fuel 0 c₁ with
      | ⟨none, problems⟩ => ⟨none, problems⟩
      | ⟨some (inner, c₂), problems⟩ =>
        match c₂.eat? (.mark .closeParen) with
        | none => ⟨none, problems⟩
        | some (close, c₃) => ⟨some (mkParen inner (t.span.through close.span), c₃), problems⟩ := by
  obtain ⟨hLexeme, rfl, rfl⟩ := Cursor.eat?_mark_eq_some.mp hOpen
  obtain ⟨tokens, stop⟩ := c
  cases tokens with
  | nil => cases hLexeme
  | cons t rest =>
    obtain ⟨lexeme, span⟩ := t
    obtain rfl : lexeme = .mark .openParen := hLexeme
    rfl

/-- An operator in front of an operand. -/
theorem parseOperand_unary {fuel : Nat} {op : UnaryOp}
    (h : UnaryOp.ofLexeme? c.peek.lexeme = some op) :
    parseOperand scope (fuel + 1) c =
      match parseOperand scope fuel c.next with
      | ⟨none, problems⟩ => ⟨none, problems⟩
      | ⟨some (operand, c'), problems⟩ =>
        ⟨some (mkUnary op operand (c.peek.span.through operand.span), c'), problems⟩ := by
  obtain ⟨tokens, stop⟩ := c
  cases tokens with
  | nil => cases h
  | cons t rest =>
    obtain ⟨lexeme, span⟩ := t
    cases lexeme with
    | mark m => cases m <;> cases h <;> rfl
    | _ => cases h

-- --------
-- One token at a time
-- --------

section Steps

variable {fuel stop : Nat} {rest : List Token} {s : Span}

theorem parseFrom_succ :
    parseFrom scope (fuel + 1) least = parseOperand scope fuel >>= parseRest scope fuel least := by
  funext c
  show _ = Parser.bind _ _ c
  unfold parseFrom Parser.bind
  cases parseOperand scope fuel c with
  | mk result problems =>
    cases result with
    | none => rfl
    | some found => rfl

theorem parseOperand_number (v : Value) :
    parseOperand scope (fuel + 1) ⟨⟨.number v, s⟩ :: rest, stop⟩ = .done (.const v s) ⟨rest, stop⟩ := rfl

theorem parseOperand_name {name : String} (h : scope.reserved name = false) :
    parseOperand scope (fuel + 1) ⟨⟨.identifier name, s⟩ :: rest, stop⟩ =
      .done (ofName scope name s) ⟨rest, stop⟩ :=
  if_neg (by rw [h]; decide)

theorem parseOperand_reserved {name : String} (h : scope.reserved name = true) :
    parseOperand scope (fuel + 1) ⟨⟨.identifier name, s⟩ :: rest, stop⟩ = .nothing :=
  if_pos h

theorem parseOperand_counter {m : Mark} (h : m = .star ∨ m = .dollar) :
    parseOperand scope (fuel + 1) ⟨⟨.mark m, s⟩ :: rest, stop⟩ =
      .done (scope.counter.withSpan s) ⟨rest, stop⟩ := by
  rcases h with rfl | rfl <;> rfl

theorem parseOperand_plus :
    parseOperand scope (fuel + 1) ⟨⟨.mark .plus, s⟩ :: rest, stop⟩ =
      parseOperand scope fuel ⟨rest, stop⟩ := rfl

/-- The end of an expression whose opening parenthesis is at `s`. -/
def closeParen (s : Span) (inner : Expr) : Parser Expr := do
  let close ← Parser.mark .closeParen
  pure (mkParen inner (s.through close.span))

theorem closeParen_of_eat? {inner : Expr} {close : Token}
    (h : c.eat? (.mark .closeParen) = some (close, c')) :
    closeParen s inner c = .done (mkParen inner (s.through close.span)) c' :=
  Parser.bind_of_done (Parser.mark_of_eat? h)

theorem closeParen_of_eat?_none {inner : Expr} (h : c.eat? (.mark .closeParen) = none) :
    closeParen s inner c = .nothing :=
  Parser.bind_of_nothing (Parser.mark_of_eat?_none h)

theorem parseOperand_paren :
    parseOperand scope (fuel + 1) ⟨⟨.mark .openParen, s⟩ :: rest, stop⟩ =
      (parseFrom scope fuel 0 >>= closeParen s) ⟨rest, stop⟩ := by
  have hOpen : Cursor.eat? ⟨⟨.mark .openParen, s⟩ :: rest, stop⟩ (.mark .openParen) =
      some (⟨.mark .openParen, s⟩, ⟨rest, stop⟩) :=
    Cursor.eat?_mark_eq_some.mpr ⟨rfl, rfl, rfl⟩
  rw [parseOperand_openParen hOpen]
  show _ = Parser.bind _ _ _
  unfold Parser.bind
  cases parseFrom scope fuel 0 ⟨rest, stop⟩ with
  | mk result problems =>
    cases result with
    | none => rfl
    | some found =>
      obtain ⟨inner, c⟩ := found
      cases hClose : c.eat? (.mark .closeParen) with
      | none => simp [hClose, closeParen_of_eat?_none hClose, Outcome.after, Outcome.nothing]
      | some closing => simp [hClose, closeParen_of_eat? hClose, Outcome.after, Outcome.done]

theorem parseOperand_sign {l : Lexeme} {op : UnaryOp} (h : UnaryOp.ofLexeme? l = some op) :
    parseOperand scope (fuel + 1) ⟨⟨l, s⟩ :: rest, stop⟩ =
      (parseOperand scope fuel >>= fun e => pure (mkUnary op e (s.through e.span))) ⟨rest, stop⟩ := by
  have hPeek : UnaryOp.ofLexeme? (Cursor.peek ⟨⟨l, s⟩ :: rest, stop⟩).lexeme = some op := h
  have hNext : Cursor.next ⟨⟨l, s⟩ :: rest, stop⟩ = ⟨rest, stop⟩ := rfl
  rw [parseOperand_unary hPeek, hNext]
  show _ = Parser.bind _ _ _
  unfold Parser.bind
  cases parseOperand scope fuel ⟨rest, stop⟩ with
  | mk result problems =>
    cases result with
    | none => rfl
    | some found =>
      show _ = Outcome.after problems (.done _ found.2)
      simp only [Outcome.after, Outcome.done, List.append_nil]
      rfl

variable {lhs rhs : Expr} {op : BinaryOp}

/-- An operator that binds less tightly than asked for is left unread. -/
theorem parseRest_of_looser (hOp : BinaryOp.ofLexeme? c.peek.lexeme = some op)
    (hLoose : op.precedence < least) : parseRest scope fuel least lhs c = .done lhs c := by
  cases fuel with
  | zero => rfl
  | succ fuel => simp only [parseRest, hOp, if_pos hLoose]

/-- An operator without a right operand is left unread. -/
theorem parseRest_of_nothing (hOp : BinaryOp.ofLexeme? c.peek.lexeme = some op)
    (hTight : least ≤ op.precedence)
    (hRhs : parseFrom scope fuel (op.precedence + 1) c.next = .nothing) :
    parseRest scope (fuel + 1) least lhs c = .done lhs c := by
  simp only [parseRest, hOp, if_neg (Nat.not_lt.mpr hTight), hRhs, Outcome.nothing]
  rfl

theorem parseRest_of_done (hOp : BinaryOp.ofLexeme? c.peek.lexeme = some op)
    (hTight : least ≤ op.precedence)
    (hRhs : parseFrom scope fuel (op.precedence + 1) c.next = .done rhs c')
    (hFold : mkBinary? op lhs rhs = some e) :
    parseRest scope (fuel + 1) least lhs c = parseRest scope fuel least e c' := by
  simp only [parseRest, hOp, if_neg (Nat.not_lt.mpr hTight), hRhs, Outcome.done, hFold, Outcome.after,
    List.nil_append]

end Steps

/-- An expression that starts with a parenthesis starts with an expression in parentheses, and is no more
than that if no operator follows. -/
theorem paren_of_parse {t : Token} {c₁ : Cursor} (hOpen : c.eat? (.mark .openParen) = some (t, c₁))
    (h : parse scope 0 c = .done e c') :
    ∃ inner c₂ close c₃, parse scope 0 c₁ = .done inner c₂ ∧
      c₂.eat? (.mark .closeParen) = some (close, c₃) ∧
      (BinaryOp.ofLexeme? c₃.peek.lexeme = none →
        e = mkParen inner (t.span.through close.span) ∧ c' = c₃) := by
  -- The parenthesis takes the two units of fuel that its token was given.
  have hFuel : parseFrom scope (2 * c.rest.length) 0 c₁ = parse scope 0 c₁ := by
    obtain ⟨hLexeme, -, rfl⟩ := Cursor.eat?_mark_eq_some.mp hOpen
    obtain ⟨tokens, stop⟩ := c
    cases tokens with
    | nil => cases hLexeme
    | cons t rest => rfl
  unfold parse parseFrom at h
  rw [parseOperand_openParen hOpen, hFuel] at h
  cases hInner : parse scope 0 c₁ with
  | mk result problems =>
    rw [hInner] at h
    cases result with
    | none => cases h
    | some found =>
      obtain ⟨inner, c₂⟩ := found
      cases hClose : c₂.eat? (.mark .closeParen) with
      | none =>
        simp only [hClose] at h
        cases h
      | some closing =>
        obtain ⟨close, c₃⟩ := closing
        simp only [hClose] at h
        obtain ⟨rfl, hRest⟩ := Parser.after_eq_done.mp h
        refine ⟨inner, c₂, close, c₃, rfl, hClose, fun hLast => ?_⟩
        rw [parseRest_of_not_operator hLast] at hRest
        obtain ⟨hSame, hStop⟩ := Parser.done_eq_done.mp hRest
        exact ⟨hSame.symm, hStop.symm⟩

end Expr

end CrossAsm
