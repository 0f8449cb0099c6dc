import CrossAsm.Proofs.Expr.Parser

/-!
# CrossAsm — what parsers read

A parser that recognises something gives a cursor that is further on among the same tokens. Which tokens
lie between the two cursors is what keeps an operand from reaching into the next one, and a statement from
reaching into the next line.

* `Cursor.Reads` — only lexemes of a given kind lie between two cursors.
* `Parser.Reads` — the same of everything that a parser recognises.
* `Expr.OperandStep`, `Expr.RestStep` — what the parser of expressions did if it recognised something.
* `Expr.reads_parse` — an expression reads no comma, no bracket and no end of a line.
-/

namespace CrossAsm

namespace Lexeme

/-- Whether the lexeme leaves a statement open. -/
def inStatement (l : Lexeme) : Bool := !l.endsStatement

/-- Whether the lexeme can be part of an expression. -/
def inExpr : Lexeme → Bool
  | .identifier _ | .number _ => true
  | .mark m => m ∉ [Mark.hash, .comma, .openBracket, .closeBracket, .colon, .equals, .period]
  | .text _ | .newline | .endOfInput => false

/-- Whether an expression can end with the lexeme. -/
def endsExpr : Lexeme → Bool
  | .identifier _ | .number _ => true
  | .mark .star | .mark .dollar | .mark .closeParen => true
  | _ => false

theorem inExpr_of_endsExpr {l : Lexeme} (h : l.endsExpr = true) : l.inExpr = true := by
  cases l with
  | identifier _ | number _ => rfl
  | mark m => cases m <;> cases h <;> rfl
  | _ => cases h

theorem inStatement_of_inExpr {l : Lexeme} (h : l.inExpr = true) : l.inStatement = true := by
  cases l with
  | identifier _ | number _ | text _ | mark _ => rfl
  | newline | endOfInput => cases h

theorem inStatement_of_kind_mark {l : Lexeme} {m : Mark} (h : l.kind = .mark m) :
    l.inStatement = true := by
  cases l with
  | mark _ => rfl
  | _ => cases h

theorem inStatement_of_name? {l : Lexeme} {name : String} (h : l.name? = some name) :
    l.inStatement = true := by
  cases l with
  | identifier _ => rfl
  | _ => cases h

theorem inExpr_of_unaryOp {l : Lexeme} {op : UnaryOp} (h : UnaryOp.ofLexeme? l = some op) :
    l.inExpr = true := by
  cases l with
  | mark m => cases m <;> cases h <;> rfl
  | _ => cases h

theorem inExpr_of_binaryOp {l : Lexeme} {op : BinaryOp} (h : BinaryOp.ofLexeme? l = some op) :
    l.inExpr = true := by
  cases l with
  | mark m => cases m <;> cases h <;> rfl
  | _ => cases h

end Lexeme

-- --------
-- Cursors
-- --------

namespace Cursor

/-- `c'` stands among the tokens of `c`, and every lexeme in front of it is `fine`. -/
structure Reads (fine : Lexeme → Bool) (c c' : Cursor) : Prop where
  stop : c'.stop = c.stop
  rest : ∃ taken, c.rest = taken ++ c'.rest ∧ ∀ t ∈ taken, fine t.lexeme = true

variable {fine : Lexeme → Bool} {c c' c'' : Cursor}

namespace Reads

theorem refl (c : Cursor) : Reads fine c c := ⟨rfl, [], rfl, by simp⟩

theorem trans (h : Reads fine c c') (h' : Reads fine c' c'') : Reads fine c c'' := by
  obtain ⟨hStop, taken, hRest, hFine⟩ := h
  obtain ⟨hStop', taken', hRest', hFine'⟩ := h'
  refine ⟨hStop'.trans hStop, taken ++ taken', ?_, ?_⟩
  · rw [hRest, hRest', List.append_assoc]
  · intro t ht
    rcases List.mem_append.mp ht with ht | ht
    · exact hFine t ht
    · exact hFine' t ht

theorem mono {fine' : Lexeme → Bool} (hMono : ∀ l, fine l = true → fine' l = true)
    (h : Reads fine c c') : Reads fine' c c' := by
  obtain ⟨hStop, taken, hRest, hFine⟩ := h
  exact ⟨hStop, taken, hRest, fun t ht => hMono _ (hFine t ht)⟩

/-- At the end of the input there is nothing to read. -/
theorem next (h : fine c.peek.lexeme = true) : Reads fine c c.next := by
  obtain ⟨tokens, stop⟩ := c
  cases tokens with
  | nil => exact refl _
  | cons t rest =>
    refine ⟨rfl, [t], rfl, ?_⟩
    intro t' ht
    obtain rfl := List.mem_singleton.mp ht
    exact h

/-- Reading inside a statement does not change where it ends. -/
theorem skipStatement_eq (h : Reads Lexeme.inStatement c c') : c'.skipStatement = c.skipStatement := by
  obtain ⟨hStop, taken, hRest, hFine⟩ := h
  have hOpen : ∀ t ∈ taken, (!t.lexeme.endsStatement) = true := hFine
  unfold skipStatement
  rw [hRest, hStop, List.dropWhile_append_of_pos hOpen]

end Reads

theorem eat?_eq_some {k : Kind} {t : Token} (h : c.eat? k = some (t, c')) :
    c.peek.lexeme.kind = k ∧ c.peek = t ∧ c.next = c' := by
  unfold eat? at h
  split at h
  · next hAt =>
    cases h
    exact ⟨beq_iff_eq.mp hAt, rfl, rfl⟩
  · cases h

theorem reads_of_eat? {k : Kind} {t : Token} (hFine : ∀ l : Lexeme, l.kind = k → fine l = true)
    (h : c.eat? k = some (t, c')) : Reads fine c c' := by
  obtain ⟨hKind, -, rfl⟩ := eat?_eq_some h
  exact .next (hFine _ hKind)

theorem eatWord?_eq_some {word : String} {t : Token} (h : c.eatWord? word = some (t, c')) :
    ∃ name, c.peek.lexeme = .identifier name ∧ c.next = c' := by
  unfold eatWord? at h
  cases hLexeme : c.peek.lexeme with
  | identifier name =>
    refine ⟨name, rfl, ?_⟩
    rw [hLexeme] at h
    simp only [Lexeme.name?] at h
    split at h
    · cases h
      rfl
    · cases h
  | _ =>
    rw [hLexeme] at h
    cases h

theorem reads_of_eatWord? {word : String} {t : Token} (h : c.eatWord? word = some (t, c')) :
    Reads Lexeme.inStatement c c' := by
  obtain ⟨name, hLexeme, rfl⟩ := eatWord?_eq_some h
  exact .next (by rw [hLexeme]; rfl)

theorem reads_of_eat?_mark {m : Mark} {t : Token} (h : c.eat? (.mark m) = some (t, c')) :
    Reads Lexeme.inStatement c c' :=
  reads_of_eat? (fun _ => Lexeme.inStatement_of_kind_mark) h

/-- All names that are still to be read are in `N`. -/
def NamesIn (N : String → Prop) (c : Cursor) : Prop :=
  ∀ t ∈ c.rest, ∀ name, t.lexeme = .identifier name → N name

namespace NamesIn

variable {N : String → Prop}

theorem any (c : Cursor) : c.NamesIn fun _ => True := fun _ _ _ _ => trivial

theorem of_suffix {c' : Cursor} (h : c.NamesIn N) (hSuffix : c'.rest <:+ c.rest) : c'.NamesIn N :=
  fun t ht => h t (hSuffix.subset ht)

theorem next (h : c.NamesIn N) : c.next.NamesIn N := h.of_suffix (List.tail_suffix _)

theorem of_reads {c' : Cursor} (h : c.NamesIn N) (hReads : c.Reads fine c') : c'.NamesIn N := by
  obtain ⟨-, taken, hRest, -⟩ := hReads
  exact h.of_suffix ⟨taken, hRest.symm⟩

theorem peek (h : c.NamesIn N) (name : String) (hName : c.peek.lexeme = .identifier name) : N name := by
  unfold Cursor.peek at hName
  split at hName
  · cases hName
  · next t rest hRest => exact h t (by rw [hRest]; exact List.mem_cons_self) name hName

end NamesIn

end Cursor

-- --------
-- Parsers
-- --------

namespace Parser

variable {α β : Type} {fine : Lexeme → Bool} {p q : Parser α} {f : α → Parser β} {c : Cursor}

/-- Whatever the parser recognises at `c`, it reads only lexemes that are `fine`. -/
def ReadsAt (fine : Lexeme → Bool) (p : Parser α) (c : Cursor) : Prop :=
  ∀ a c', (p c).result = some (a, c') → c.Reads fine c'

/-- The parser reads only lexemes that are `fine`, wherever it starts. -/
def Reads (fine : Lexeme → Bool) (p : Parser α) : Prop := ∀ c, p.ReadsAt fine c

/-- Problems aside, one parser behind another is a choice of cursors. -/
theorem result_bind (p : Parser α) (f : α → Parser β) (c : Cursor) :
    ((p >>= f) c).result = (p c).result.bind fun found => (f found.1 found.2).result := by
  show (Parser.bind p f c).result = _
  unfold Parser.bind
  cases p c with
  | mk result problems =>
    cases result with
    | none => rfl
    | some found => rfl

theorem result_orElse (p q : Parser α) (c : Cursor) :
    ((p <|> q) c).result = (p c).result.or (q c).result := by
  show (Parser.orElse p (fun _ => q) c).result = _
  unfold Parser.orElse
  cases p c with
  | mk result problems =>
    cases result with
    | none => rfl
    | some found => rfl

namespace Reads

theorem pure (a : α) : (pure a : Parser α).Reads fine := by
  intro c b c' h
  cases h
  exact .refl c

theorem fail : (fail : Parser α).Reads fine := by
  intro c a c' h
  cases h

theorem mono {fine' : Lexeme → Bool} (hMono : ∀ l, fine l = true → fine' l = true)
    (hp : p.Reads fine) : p.Reads fine' :=
  fun c a c' h => (hp c a c' h).mono hMono

end Reads

end Parser

-- --------
-- Expressions
-- --------

namespace Expr

variable {scope : Scope} {fuel : Nat} {c : Cursor}

/-- The lexemes that are an operand by themselves. -/
theorem parseOperand_of_atom {e : Expr} {c' : Cursor}
    (hParen : c.peek.lexeme ≠ .mark .openParen) (hPlus : c.peek.lexeme ≠ .mark .plus)
    (hUnary : UnaryOp.ofLexeme? c.peek.lexeme = none)
    (h : (parseOperand scope (fuel + 1) c).result = some (e, c')) :
    c.peek.lexeme.endsExpr = true ∧ e.span = c.peek.span ∧ c' = c.next := by
  obtain ⟨tokens, stop⟩ := c
  cases tokens with
  | nil => cases h
  | cons t rest =>
    obtain ⟨lexeme, span⟩ := t
    cases lexeme with
    | number v =>
      cases h
      exact ⟨rfl, rfl, rfl⟩
    | identifier name =>
      change (if scope.reserved name then Outcome.nothing else
        .done (ofName scope name span) ⟨rest, stop⟩).result = some (e, c') at h
      split at h
      · cases h
      · cases h
        refine ⟨rfl, ?_, rfl⟩
        unfold ofName
        split <;> rfl
    | mark m =>
      cases m with
      | star | dollar =>
        cases h
        exact ⟨rfl, span_withSpan _ _, rfl⟩
      | openParen => exact absurd rfl hParen
      | plus => exact absurd rfl hPlus
      | minus | tilde | less | greater => cases hUnary
      | _ => cases h
    | text content => cases h
    | newline => cases h
    | endOfInput => cases h

/-- How the parser comes to an operand: by a token, or by what stands behind a plus sign, in parentheses or
behind an operator. -/
inductive OperandStep (scope : Scope) (fuel : Nat) (c : Cursor) : Expr → Cursor → Prop
  | atom {e : Expr} (hEnds : c.peek.lexeme.endsExpr = true) (hSpan : e.span = c.peek.span) :
      OperandStep scope fuel c e c.next
  | plus {e : Expr} {c' : Cursor} (hPlus : c.peek.lexeme = .mark .plus)
      (h : (parseOperand scope fuel c.next).result = some (e, c')) : OperandStep scope fuel c e c'
  | paren {inner : Expr} {mid c' : Cursor} {close : Token} (hOpen : c.peek.lexeme = .mark .openParen)
      (h : (parseFrom scope fuel 0 c.next).result = some (inner, mid))
      (hClose : mid.eat? (.mark .closeParen) = some (close, c')) :
      OperandStep scope fuel c (mkParen inner (c.peek.span.through close.span)) c'
  | unary {op : UnaryOp} {operand : Expr} {c' : Cursor}
      (hOp : UnaryOp.ofLexeme? c.peek.lexeme = some op)
      (h : (parseOperand scope fuel c.next).result = some (operand, c')) :
      OperandStep scope fuel c (mkUnary op operand (c.peek.span.through operand.span)) c'

theorem operandStep_of_result {e : Expr} {c' : Cursor}
    (h : (parseOperand scope (fuel + 1) c).result = some (e, c')) : OperandStep scope fuel c e c' := by
  by_cases hParen : c.peek.lexeme = .mark .openParen
  · have hOpen : c.eat? (.mark .openParen) = some (c.peek, c.next) :=
      Cursor.eat?_mark_eq_some.mpr ⟨hParen, rfl, rfl⟩
    rw [parseOperand_openParen hOpen] at h
    cases hInner : parseFrom scope fuel 0 c.next with
    | mk result problems =>
      cases result with
      | none =>
        simp only [hInner] at h
        cases h
      | some found =>
        obtain ⟨inner, mid⟩ := found
        simp only [hInner] at h
        cases hClose : mid.eat? (.mark .closeParen) with
        | none =>
          simp only [hClose] at h
          cases h
        | some closing =>
          simp only [hClose] at h
          cases h
          exact .paren hParen (by rw [hInner]) hClose
  · by_cases hPlus : c.peek.lexeme = .mark .plus
    · have hSkip : parseOperand scope (fuel + 1) c = parseOperand scope fuel c.next := by
        obtain ⟨tokens, stop⟩ := c
        cases tokens with
        | nil => cases hPlus
        | cons t rest =>
          obtain ⟨lexeme, span⟩ := t
          obtain rfl : lexeme = .mark .plus := hPlus
          rfl
      rw [hSkip] at h
      exact .plus hPlus h
    · cases hUnary : UnaryOp.ofLexeme? c.peek.lexeme with
      | none =>
        obtain ⟨hAtom, hSpan, rfl⟩ := parseOperand_of_atom hParen hPlus hUnary h
        exact .atom hAtom hSpan
      | some op =>
        rw [parseOperand_unary hUnary] at h
        cases hOperand : parseOperand scope fuel c.next with
        | mk result problems =>
          cases result with
          | none =>
            simp only [hOperand] at h
            cases h
          | some found =>
            simp only [hOperand] at h
            cases h
            exact .unary hUnary (by rw [hOperand])

/-- How the parser comes to an expression from its first operand: it ends there, or goes on behind an
operator. -/
inductive RestStep (scope : Scope) (fuel least : Nat) (lhs : Expr) (c : Cursor) : Expr → Cursor → Prop
  | stop : RestStep scope fuel least lhs c lhs c
  | operator {op : BinaryOp} {rhs folded e : Expr} {mid c' : Cursor}
      (hOp : BinaryOp.ofLexeme? c.peek.lexeme = some op)
      (hRhs : (parseFrom scope fuel (op.precedence + 1) c.next).result = some (rhs, mid))
      (hFold : mkBinary? op lhs rhs = some folded)
      (h : (parseRest scope fuel least folded mid).result = some (e, c')) :
      RestStep scope fuel least lhs c e c'

theorem restStep_of_result {least : Nat} {lhs e : Expr} {c' : Cursor}
    (h : (parseRest scope (fuel + 1) least lhs c).result = some (e, c')) :
    RestStep scope fuel least lhs c e c' := by
  unfold parseRest at h
  cases hOp : BinaryOp.ofLexeme? c.peek.lexeme with
  | none =>
    simp only [hOp] at h
    cases h
    exact .stop
  | some op =>
    simp only [hOp] at h
    split at h
    · cases h
      exact .stop
    · cases hRhs : parseFrom scope fuel (op.precedence + 1) c.next with
      | mk result problems =>
        cases result with
        | none =>
          simp only [hRhs] at h
          cases h
          exact .stop
        | some found =>
          obtain ⟨rhs, mid⟩ := found
          simp only [hRhs] at h
          cases hFold : mkBinary? op lhs rhs with
          | none =>
            simp only [hFold] at h
            cases h
          | some folded =>
            simp only [hFold] at h
            exact .operator hOp (by rw [hRhs]) hFold h

theorem result_parseFrom {least : Nat} {e : Expr} {c' : Cursor}
    (h : (parseFrom scope (fuel + 1) least c).result = some (e, c')) :
    ∃ lhs mid, (parseOperand scope fuel c).result = some (lhs, mid) ∧
      (parseRest scope fuel least lhs mid).result = some (e, c') := by
  unfold parseFrom at h
  cases hLhs : parseOperand scope fuel c with
  | mk result problems =>
    cases result with
    | none =>
      simp only [hLhs] at h
      cases h
    | some found =>
      obtain ⟨lhs, mid⟩ := found
      simp only [hLhs] at h
      exact ⟨lhs, mid, rfl, h⟩

/-- The three functions of the parser call one another with less fuel, so they are taken together. -/
theorem reads_of_fuel (scope : Scope) (fuel : Nat) :
    (∀ least, (parseFrom scope fuel least).Reads Lexeme.inExpr) ∧
      (∀ least lhs, (parseRest scope fuel least lhs).Reads Lexeme.inExpr) ∧
      (parseOperand scope fuel).Reads Lexeme.inExpr := by
  induction fuel with
  | zero => exact ⟨fun _ => .fail, fun _ lhs => .pure lhs, .fail⟩
  | succ fuel ih =>
    obtain ⟨ihFrom, ihRest, ihOperand⟩ := ih
    refine ⟨?_, ?_, ?_⟩
    · intro least c e c' h
      obtain ⟨lhs, mid, hLhs, hRest⟩ := result_parseFrom h
      exact (ihOperand c lhs mid hLhs).trans (ihRest least lhs mid e c' hRest)
    · intro least lhs c e c' h
      cases restStep_of_result h with
      | stop => exact .refl c
      | @operator op rhs folded _ mid _ hOp hRhs _ hRest =>
        have hOperator := Cursor.Reads.next (Lexeme.inExpr_of_binaryOp hOp)
        have hRight := ihFrom (op.precedence + 1) c.next rhs mid hRhs
        exact (hOperator.trans hRight).trans (ihRest least folded mid e c' hRest)
    · intro c e c' h
      cases operandStep_of_result h with
      | atom hEnds => exact .next (Lexeme.inExpr_of_endsExpr hEnds)
      | plus hPlus hRun => exact (Cursor.Reads.next (by rw [hPlus]; rfl)).trans (ihOperand c.next e c' hRun)
      | @paren inner mid _ close hOpen hInner hClose =>
        have hFirst : Cursor.Reads Lexeme.inExpr c c.next := .next (by rw [hOpen]; rfl)
        have hMiddle := ihFrom 0 c.next inner mid hInner
        obtain ⟨hLexeme, -, rfl⟩ := Cursor.eat?_mark_eq_some.mp hClose
        have hLast : Cursor.Reads Lexeme.inExpr mid mid.next := .next (by rw [hLexeme]; rfl)
        exact (hFirst.trans hMiddle).trans hLast
      | unary hOp hRun =>
        have hSign := Cursor.Reads.next (Lexeme.inExpr_of_unaryOp hOp)
        exact hSign.trans (ihOperand c.next _ c' hRun)

/-- **An expression reads only lexemes of expressions**: no comma, bracket or end of a line. -/
theorem reads_parse (scope : Scope) (least : Nat) : (parse scope least).Reads Lexeme.inExpr :=
  fun c => (reads_of_fuel scope (2 * c.rest.length + 2)).1 least c

/-- An expression stays inside its statement. -/
theorem reads_parse_inStatement (scope : Scope) (least : Nat) :
    (parse scope least).Reads Lexeme.inStatement :=
  (reads_parse scope least).mono fun _ => Lexeme.inStatement_of_inExpr

end Expr

end CrossAsm
