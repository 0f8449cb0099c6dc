import CrossAsm.Proofs.Expr.Recognition

/-!
# CrossAsm — reading an expression with one moving cursor

The parser of expressions has no cursor where it recognises nothing. Here the same reading is done with a cursor that
moves on and is put back, and that runs out of fuel openly instead of giving up. It never does: the fuel that the
parser has is enough, the cursor is where it was if nothing was read, and has moved otherwise.

* `Expr.walkFrom` — the reading, for a given fuel.
* `Expr.walkFrom_eq_parse` — enough fuel for the tokens, and it tells what the parser tells.
* `Expr.reading_moves_or_restores` — where the cursor is in the end.
-/

namespace CrossAsm

/-- The tokens that end an operand or a statement, or that no expression has in it. -/
def Kind.outsideExpr : List Kind :=
  [.mark .comma, .newline, .endOfInput, .mark .colon, .mark .equals, .mark .period, .mark .hash, .text,
    .mark .openBracket, .mark .closeBracket]

theorem Lexeme.kind_not_mem_outsideExpr {l : Lexeme} (h : l.inExpr = true) : l.kind ∉ Kind.outsideExpr := by
  cases l with
  | identifier name => exact (by decide : Kind.identifier ∉ Kind.outsideExpr)
  | number v => exact (by decide : Kind.number ∉ Kind.outsideExpr)
  | mark m =>
    revert h
    cases m <;> decide
  | _ => cases h

namespace Expr

/-- What was read, if anything, where the cursor is, and the problems met. -/
structure Landing where
  result : Option Expr
  cursor : Cursor
  problems : List Diagnostic

namespace Landing

/-- The cursor is put back to `c` if nothing was read. -/
def attempt (c : Cursor) (l : Landing) : Landing := { l with cursor := if l.result.isNone then c else l.cursor }

/-- What a parser tells of it. -/
def outcome (l : Landing) : Outcome Expr := ⟨l.result.map (·, l.cursor), l.problems⟩

theorem cursor_attempt {c : Cursor} {l : Landing} (h : (l.attempt c).result = none) : (l.attempt c).cursor = c := by
  have hNone : l.result = none := h
  rw [attempt, hNone]
  rfl

theorem outcome_attempt (c : Cursor) (l : Landing) : (l.attempt c).outcome = l.outcome := by
  obtain ⟨_ | e, cursor, problems⟩ := l <;> rfl

/-- What a parser tells, and the cursor it started from, say it all. -/
theorem eq_of_outcome {c : Cursor} {l l' : Landing} (h : l.outcome = l'.outcome)
    (hBack : l.result = none → l.cursor = c) (hBack' : l'.result = none → l'.cursor = c) : l = l' := by
  obtain ⟨_ | e, cursor, problems⟩ := l <;> obtain ⟨_ | e', cursor', problems'⟩ := l' <;> cases h
  · cases hBack rfl
    cases hBack' rfl
    rfl
  · rfl

end Landing

mutual

/-- Reads an expression whose operators outside parentheses have at least precedence `least`. -/
def walkFrom (scope : Scope) : Nat → Nat → Cursor → Option Landing
  | 0, _, _ => none
  | fuel + 1, least, c => do
    let ⟨result, c', problems⟩ ← walkOperand scope fuel c
    match result with
    | none => return Landing.attempt c ⟨none, c', problems⟩
    | some lhs =>
      let ⟨result, c'', more⟩ ← walkRest scope fuel least lhs c'
      return Landing.attempt c ⟨result, c'', problems ++ more⟩

/-- Reads the operators and operands behind `lhs`. An operator without a right operand is put back. -/
def walkRest (scope : Scope) : Nat → Nat → Expr → Cursor → Option Landing
  | 0, _, _, _ => none
  | fuel + 1, least, lhs, c =>
    match BinaryOp.ofLexeme? c.peek.lexeme with
    | none => some ⟨some lhs, c, []⟩
    | some op =>
      if op.precedence < least then some ⟨some lhs, c, []⟩
      else do
        let ⟨result, c', problems⟩ ← walkFrom scope fuel (op.precedence + 1) c.next
        match result with
        | none => return ⟨some lhs, c, problems⟩
        | some rhs =>
          match mkBinary? op lhs rhs with
          | none => return ⟨none, c', problems ++ [.divisionByZero c.peek.span]⟩
          | some e =>
            let ⟨result, c'', more⟩ ← walkRest scope fuel least e c'
            return ⟨result, c'', problems ++ more⟩

/-- Reads an operand with the unary operators in front of it. -/
def walkOperand (scope : Scope) : Nat → Cursor → Option Landing
  | 0, _ => none
  | fuel + 1, c =>
    match c.peek.lexeme with
    | .mark .plus => (walkOperand scope fuel c.next).map (Landing.attempt c)
    | .number v => some ⟨some (.const v c.peek.span), c.next, []⟩
    | .identifier name =>
      if scope.reserved name then some ⟨none, c, []⟩ else some ⟨some (ofName scope name c.peek.span), c.next, []⟩
    | .mark .star | .mark .dollar => some ⟨some (scope.counter.withSpan c.peek.span), c.next, []⟩
    | .mark .openParen => do
      let ⟨result, c', problems⟩ ← walkFrom scope fuel 0 c.next
      match result with
      | none => return Landing.attempt c ⟨none, c', problems⟩
      | some inner =>
        match c'.eat? (.mark .closeParen) with
        | none => return Landing.attempt c ⟨none, c', problems⟩
        | some (close, c'') => return ⟨some (mkParen inner (c.peek.span.through close.span)), c'', problems⟩
    | l =>
      match UnaryOp.ofLexeme? l with
      | none => some ⟨none, c, []⟩
      | some op => do
        let ⟨result, c', problems⟩ ← walkOperand scope fuel c.next
        return Landing.attempt c ⟨result.map fun e => mkUnary op e (c.peek.span.through e.span), c', problems⟩

end

variable {scope : Scope} {fuel least : Nat} {c : Cursor} {l : Landing}

/-- The cursor is put back if nothing was read. -/
theorem cursor_walkFrom (h : walkFrom scope fuel least c = some l) (hNone : l.result = none) : l.cursor = c := by
  cases fuel with
  | zero => cases h
  | succ fuel =>
    simp only [walkFrom, Option.bind_eq_bind, Option.bind_eq_some_iff] at h
    obtain ⟨⟨_ | lhs, c', problems⟩, -, h⟩ := h
    · cases h
      exact Landing.cursor_attempt hNone
    · obtain ⟨rest, -, h⟩ := Option.bind_eq_some_iff.mp h
      cases h
      exact Landing.cursor_attempt hNone

/-- A run that lands, and tells what the parser tells. -/
def Agrees (w : Option Landing) (o : Outcome Expr) : Prop := ∃ l, w = some l ∧ l.outcome = o

/-- One reading behind another, where the first agrees and the second does wherever the first lands. -/
theorem agrees_bind {w : Option Landing} {p : Parser Expr} {f : Landing → Option Landing} {g : Expr → Parser Expr}
    (h : Agrees w (p c)) (hNone : ∀ c' problems, Agrees (f ⟨none, c', problems⟩) ⟨none, problems⟩)
    (hSome : ∀ e c' problems, (p c).result = some (e, c') →
      Agrees (f ⟨some e, c', problems⟩) ((g e c').after problems)) : Agrees (w.bind f) ((p >>= g) c) := by
  obtain ⟨⟨result, c', problems⟩, rfl, hSame⟩ := h
  have hBind : (p >>= g) c = Parser.bind p g c := rfl
  rw [Option.bind_some, hBind, Parser.bind, ← hSame]
  cases result with
  | none => exact hNone c' problems
  | some e => exact hSome e c' problems (by rw [← hSame]; rfl)

/-- An operand agrees if what stands behind its first token does. -/
theorem agrees_walkOperand
    (hOperand : c.rest ≠ [] → Agrees (walkOperand scope fuel c.next) (parseOperand scope fuel c.next))
    (hFrom : c.rest ≠ [] → Agrees (walkFrom scope fuel 0 c.next) (parseFrom scope fuel 0 c.next)) :
    Agrees (walkOperand scope (fuel + 1) c) (parseOperand scope (fuel + 1) c) := by
  obtain ⟨tokens, stop⟩ := c
  cases tokens with
  | nil => exact ⟨_, rfl, rfl⟩
  | cons t rest =>
    obtain ⟨lexeme, span⟩ := t
    have hOperand := hOperand (List.cons_ne_nil _ _)
    have hFrom := hFrom (List.cons_ne_nil _ _)
    cases hSign : UnaryOp.ofLexeme? lexeme with
    | some op =>
      rw [parseOperand_sign hSign]
      have hWalk : walkOperand scope (fuel + 1) ⟨⟨lexeme, span⟩ :: rest, stop⟩ =
          (walkOperand scope fuel ⟨rest, stop⟩).bind fun l => some (Landing.attempt ⟨⟨lexeme, span⟩ :: rest, stop⟩
            ⟨l.result.map fun e => mkUnary op e (span.through e.span), l.cursor, l.problems⟩) := by
        cases lexeme with
        | mark m => cases m <;> cases hSign <;> rfl
        | _ => cases hSign
      rw [hWalk]
      refine agrees_bind hOperand (fun c' problems => ⟨_, rfl, rfl⟩) fun e c' problems _ => ⟨_, rfl, ?_⟩
      exact congrArg (Outcome.mk _) (List.append_nil problems).symm
    | none =>
      cases lexeme with
      | mark m =>
        cases m with
        | plus =>
          obtain ⟨l, hWalk, hSame⟩ := hOperand
          exact ⟨_, congrArg (Option.map _) hWalk, (Landing.outcome_attempt _ l).trans hSame⟩
        | openParen =>
          rw [parseOperand_paren]
          refine agrees_bind hFrom (fun c' problems => ⟨_, rfl, rfl⟩) fun inner c' problems _ => ?_
          dsimp only
          cases hClose : c'.eat? (.mark .closeParen) with
          | none =>
            rw [closeParen_of_eat?_none hClose]
            exact ⟨_, rfl, congrArg (Outcome.mk none) (List.append_nil problems).symm⟩
          | some closing =>
            rw [closeParen_of_eat? hClose]
            exact ⟨_, rfl, congrArg (Outcome.mk _) (List.append_nil problems).symm⟩
        | minus | tilde | less | greater => cases hSign
        | _ => exact ⟨_, rfl, rfl⟩
      | identifier name =>
        cases hReserved : scope.reserved name with
        | true =>
          rw [parseOperand_reserved hReserved]
          exact ⟨_, if_pos hReserved, rfl⟩
        | false =>
          rw [parseOperand_name hReserved]
          exact ⟨_, if_neg (Bool.eq_false_iff.mp hReserved), rfl⟩
      | _ => exact ⟨_, rfl, rfl⟩

theorem agrees_of_fuel (scope : Scope) (fuel : Nat) :
    (∀ least c, 2 * c.rest.length + 2 ≤ fuel → Agrees (walkFrom scope fuel least c) (parseFrom scope fuel least c)) ∧
    (∀ least lhs c, 2 * c.rest.length + 1 ≤ fuel →
      Agrees (walkRest scope fuel least lhs c) (parseRest scope fuel least lhs c)) ∧
    ∀ c, 2 * c.rest.length + 1 ≤ fuel → Agrees (walkOperand scope fuel c) (parseOperand scope fuel c) := by
  induction fuel with
  | zero =>
    refine ⟨fun _ _ h => ?_, fun _ _ _ h => ?_, fun _ h => ?_⟩
    · omega
    · omega
    · omega
  | succ fuel ih =>
    obtain ⟨ihFrom, ihRest, ihOperand⟩ := ih
    obtain ⟨readsFrom, -, readsOperand⟩ := reads_of_fuel scope fuel
    refine ⟨?_, ?_, ?_⟩
    · intro least c h
      rw [parseFrom_succ]
      refine agrees_bind (ihOperand c (by omega)) (fun c' problems => ⟨_, rfl, rfl⟩) fun lhs mid problems hLhs => ?_
      have hLength := (readsOperand c lhs mid hLhs).length_le
      obtain ⟨l, hWalk, hSame⟩ := ihRest least lhs mid (by omega)
      refine ⟨_, congrArg (Option.bind · _) hWalk, ?_⟩
      rw [Landing.outcome_attempt, ← hSame]
      rfl
    · intro least lhs c h
      unfold walkRest parseRest
      cases hOp : BinaryOp.ofLexeme? c.peek.lexeme with
      | none => exact ⟨_, rfl, rfl⟩
      | some op =>
        have hNext := length_of_operator hOp
        dsimp only
        by_cases hLoose : op.precedence < least
        · rw [if_pos hLoose, if_pos hLoose]
          exact ⟨_, rfl, rfl⟩
        rw [if_neg hLoose, if_neg hLoose]
        obtain ⟨⟨result, mid, problems⟩, hWalk, hSame⟩ := ihFrom (op.precedence + 1) c.next (by omega)
        rw [hWalk, ← hSame]
        cases result with
        | none => exact ⟨_, rfl, rfl⟩
        | some rhs =>
          have hLength := (readsFrom (op.precedence + 1) c.next rhs mid (by rw [← hSame]; rfl)).length_le
          dsimp only [Landing.outcome, Option.map_some, Option.bind_eq_bind, Option.bind_some]
          cases mkBinary? op lhs rhs with
          | none => exact ⟨_, rfl, rfl⟩
          | some e =>
            obtain ⟨l, hWalk, hSame⟩ := ihRest least e mid (by omega)
            dsimp only
            rw [hWalk, ← hSame]
            exact ⟨_, rfl, rfl⟩
    · intro c h
      have hNext : c.next.rest.length = c.rest.length - 1 := List.length_tail
      refine agrees_walkOperand (fun hMore => ihOperand c.next ?_) fun hMore => ihFrom 0 c.next ?_
      · have hPos := List.length_pos_iff.mpr hMore
        omega
      · have hPos := List.length_pos_iff.mpr hMore
        omega

/-- **Enough fuel for the tokens** is enough, and what is read is what the parser recognises. -/
theorem walkFrom_eq_parse (h : 2 * c.rest.length + 2 ≤ fuel) :
    ∃ l, walkFrom scope fuel least c = some l ∧ parse scope least c = l.outcome := by
  obtain ⟨l, hWalk, hSame⟩ := (agrees_of_fuel scope fuel).1 least c h
  exact ⟨l, hWalk, by rw [hSame, parseFrom_eq_parse h]⟩

/-- **Reading an expression ends**, wherever it starts, and puts the cursor back or moves it on. The cursor is where
it was if nothing was read. Otherwise it has moved, over none of the tokens that end an operand or a statement. -/
theorem reading_moves_or_restores (scope : Scope) (least : Nat) (c : Cursor) :
    ∃ l : Landing, (∀ fuel, 2 * c.rest.length + 2 ≤ fuel → walkFrom scope fuel least c = some l) ∧
      parse scope least c = l.outcome ∧ (l.result = none → l.cursor = c) ∧
      (l.result ≠ none → l.cursor.rest.length < c.rest.length ∧ l.cursor.stop = c.stop ∧
        ∃ taken, c.rest = taken ++ l.cursor.rest ∧ ∀ t ∈ taken, t.lexeme.kind ∉ Kind.outsideExpr) := by
  obtain ⟨l, hWalk, hSame⟩ := walkFrom_eq_parse (Nat.le_refl (2 * c.rest.length + 2))
  refine ⟨l, fun fuel hFuel => ?_, hSame, cursor_walkFrom hWalk, fun hSome => ?_⟩
  · obtain ⟨l', hWalk', hSame'⟩ := walkFrom_eq_parse hFuel
    rw [hWalk', Landing.eq_of_outcome (hSame'.symm.trans hSame) (cursor_walkFrom hWalk') (cursor_walkFrom hWalk)]
  · obtain ⟨e, he⟩ := Option.ne_none_iff_exists'.mp hSome
    have hResult : (parse scope least c).result = some (e, l.cursor) := by
      rw [hSame, Landing.outcome, he]
      rfl
    obtain ⟨x, ts, hRead⟩ := readAs_of_parse hResult
    obtain ⟨hStop, taken, hRest, hFine⟩ := reads_parse scope least c e l.cursor hResult
    refine ⟨?_, hStop, taken, hRest, fun t ht => Lexeme.kind_not_mem_outsideExpr (hFine t ht)⟩
    have hPos := List.length_pos_iff.mpr hRead.written.ne_nil
    rw [hRead.rest, List.length_append]
    omega

end Expr

end CrossAsm
