import CrossAsm.Proofs.Expr.Grammar
import CrossAsm.Proofs.Reading

/-!
# CrossAsm — only phrases are read

The converse of the operator grammar: whatever the parser takes for an expression is a phrase, written with
parentheses wherever precedence or left associativity asks for them. The only freedom is a plus sign in front of an
operand, which is dropped.

* `Phrase.WrittenAs` — tokens that are a phrase but for such signs.
* `Expr.parseFrom_eq_parse` — fuel in excess of what the tokens need changes nothing.
* `Expr.Stops` — an operator that is left unread has no right operand, so that nobody else reads it either.
* `Expr.readAs_of_parse` — so what is read is the expression of a phrase.
-/

namespace CrossAsm

theorem Cursor.rest_eq_cons {c : Cursor} (h : c.peek.lexeme.inExpr = true) : c.rest = c.peek :: c.next.rest := by
  obtain ⟨tokens, stop⟩ := c
  cases tokens with
  | nil => cases h
  | cons t rest => rfl

theorem UnaryOp.eq_mark_of_ofLexeme? {l : Lexeme} {op : UnaryOp} (h : UnaryOp.ofLexeme? l = some op) :
    l = .mark op.mark := by
  cases l with
  | mark m => cases m <;> cases h <;> rfl
  | _ => cases h

theorem BinaryOp.eq_mark_of_ofLexeme? {l : Lexeme} {op : BinaryOp} (h : BinaryOp.ofLexeme? l = some op) :
    l = .mark op.mark := by
  cases l with
  | mark m => cases m <;> cases h <;> rfl
  | _ => cases h

-- --------
-- Written phrases
-- --------

namespace Phrase

/-- The tokens are those of the phrase, except that plus signs may stand in front of operands. -/
inductive WrittenAs : Phrase → List Token → Prop
  | number (v : Value) (s : Span) : WrittenAs (.number v s) [⟨.number v, s⟩]
  | symbol (name : String) (s : Span) : WrittenAs (.symbol name s) [⟨.identifier name, s⟩]
  | star (s : Span) : WrittenAs (.star s) [⟨.mark .star, s⟩]
  | dollar (s : Span) : WrittenAs (.dollar s) [⟨.mark .dollar, s⟩]
  | unary {x : Phrase} {ts : List Token} (op : UnaryOp) (s : Span) (h : WrittenAs x ts) :
      WrittenAs (.unary op s x) (⟨.mark op.mark, s⟩ :: ts)
  | binary {l r : Phrase} {ls rs : List Token} (op : BinaryOp) (s : Span) (hl : WrittenAs l ls)
      (hr : WrittenAs r rs) : WrittenAs (.binary op s l r) (ls ++ ⟨.mark op.mark, s⟩ :: rs)
  | paren {x : Phrase} {ts : List Token} (opening closing : Span) (h : WrittenAs x ts) :
      WrittenAs (.paren opening closing x) (⟨.mark .openParen, opening⟩ :: (ts ++ [⟨.mark .closeParen, closing⟩]))
  | plus {x : Phrase} {ts : List Token} (s : Span) (hOperand : x.isOperand = true) (h : WrittenAs x ts) :
      WrittenAs x (⟨.mark .plus, s⟩ :: ts)

variable {x : Phrase} {ts : List Token}

theorem WrittenAs.ne_nil (h : x.WrittenAs ts) : ts ≠ [] := by
  cases h with
  | binary op s hl hr => exact List.append_ne_nil_of_right_ne_nil _ (List.cons_ne_nil _ _)
  | _ => exact List.cons_ne_nil _ _

/-- Precedences only matter outside of operands. -/
theorem fits_of_isOperand (h : x.isOperand = true) {k : Nat} (hFits : x.fits k = true) (k' : Nat) :
    x.fits k' = true := by
  cases x with
  | binary => cases h
  | _ => exact hFits

end Phrase

-- --------
-- Fuel
-- --------

/-- Two parsers go on alike where they start alike. -/
theorem Parser.bind_congr {α β : Type} {p p' : Parser α} {f f' : α → Parser β} {c : Cursor} (hp : p c = p' c)
    (hf : ∀ a mid, (p' c).result = some (a, mid) → f a mid = f' a mid) : (p >>= f) c = (p' >>= f') c := by
  show Parser.bind p f c = Parser.bind p' f' c
  unfold Parser.bind
  rw [hp]
  cases hRun : p' c with
  | mk result problems =>
    cases result with
    | none => rfl
    | some found => exact congrArg (Outcome.after problems) (hf found.1 found.2 (by rw [hRun]))

theorem Cursor.Reads.length_le {fine : Lexeme → Bool} {c c' : Cursor} (h : c.Reads fine c') :
    c'.rest.length ≤ c.rest.length := by
  obtain ⟨-, taken, hRest, -⟩ := h
  rw [hRest, List.length_append]
  omega

namespace Expr

variable {scope : Scope} {fuel fuel' least : Nat} {c c' : Cursor} {lhs e : Expr}

/-- What an operand is read as depends on the fuel for what stands behind its first token. -/
theorem parseOperand_congr (hOperand : parseOperand scope fuel c.next = parseOperand scope fuel' c.next)
    (hFrom : parseFrom scope fuel 0 c.next = parseFrom scope fuel' 0 c.next) :
    parseOperand scope (fuel + 1) c = parseOperand scope (fuel' + 1) c := by
  obtain ⟨tokens, stop⟩ := c
  cases tokens with
  | nil => rfl
  | cons t rest =>
    obtain ⟨lexeme, span⟩ := t
    cases hSign : UnaryOp.ofLexeme? lexeme with
    | some op =>
      rw [parseOperand_sign hSign, parseOperand_sign hSign]
      exact Parser.bind_congr hOperand fun _ _ _ => rfl
    | none =>
      cases lexeme with
      | mark m =>
        cases m with
        | plus => exact hOperand
        | openParen =>
          rw [parseOperand_paren, parseOperand_paren]
          exact Parser.bind_congr hFrom fun _ _ _ => rfl
        | minus | tilde | less | greater => cases hSign
        | _ => rfl
      | _ => rfl

/-- The outcome of an operator that binds tightly enough, problems aside. -/
theorem result_parseRest {op : BinaryOp} (hOp : c.operator? = some op) (hTight : least ≤ op.precedence) :
    (parseRest scope (fuel + 1) least lhs c).result =
      match (parseFrom scope fuel (op.precedence + 1) c.next).result with
      | none => some (lhs, c)
      | some (rhs, mid) => (mkBinary? op lhs rhs).bind fun e => (parseRest scope fuel least e mid).result := by
  have hOp' : BinaryOp.ofLexeme? c.peek.lexeme = some op := hOp
  simp only [parseRest, hOp', if_neg (Nat.not_lt.mpr hTight)]
  cases parseFrom scope fuel (op.precedence + 1) c.next with
  | mk result problems =>
    cases result with
    | none => rfl
    | some found =>
      dsimp only
      cases mkBinary? op lhs found.1 with
      | none => rfl
      | some e => rfl

theorem length_of_operator {op : BinaryOp} (h : c.operator? = some op) : c.rest.length = c.next.rest.length + 1 := by
  rw [Cursor.rest_eq_cons (Lexeme.inExpr_of_binaryOp h), List.length_cons]

/-- The three functions of the parser call one another with less fuel, so they are taken together. Two units for
every token are enough, and two more for the first call. -/
theorem enough_fuel (scope : Scope) (fuel : Nat) :
    (∀ more least c, 2 * c.rest.length + 2 ≤ fuel →
      parseFrom scope (fuel + more) least c = parseFrom scope fuel least c) ∧
    (∀ more least lhs c, 2 * c.rest.length + 1 ≤ fuel →
      parseRest scope (fuel + more) least lhs c = parseRest scope fuel least lhs c) ∧
    (∀ more c, 2 * c.rest.length + 1 ≤ fuel →
      parseOperand scope (fuel + more) c = parseOperand scope fuel c) := by
  induction fuel with
  | zero =>
    refine ⟨fun _ _ _ h => ?_, fun _ _ _ _ h => ?_, fun _ _ h => ?_⟩
    · omega
    · omega
    · omega
  | succ fuel ih =>
    obtain ⟨ihFrom, ihRest, ihOperand⟩ := ih
    obtain ⟨readsFrom, -, readsOperand⟩ := reads_of_fuel scope fuel
    refine ⟨?_, ?_, ?_⟩
    · intro more least c h
      rw [Nat.add_right_comm, parseFrom_succ, parseFrom_succ]
      refine Parser.bind_congr (ihOperand more c (by omega)) fun lhs mid hLhs => ?_
      have hLength := (readsOperand c lhs mid hLhs).length_le
      exact ihRest more least lhs mid (by omega)
    · intro more least lhs c h
      rw [Nat.add_right_comm]
      cases hOp : c.operator? with
      | none => rw [parseRest_of_not_operator hOp, parseRest_of_not_operator hOp]
      | some op =>
        have hOp' : BinaryOp.ofLexeme? c.peek.lexeme = some op := hOp
        have hNext := length_of_operator hOp
        by_cases hLoose : op.precedence < least
        · rw [parseRest_of_looser hOp hLoose, parseRest_of_looser hOp hLoose]
        simp only [parseRest, hOp', if_neg hLoose, ihFrom more (op.precedence + 1) c.next (by omega)]
        cases hRhs : parseFrom scope fuel (op.precedence + 1) c.next with
        | mk result problems =>
          cases result with
          | none => rfl
          | some found =>
            have hLength := (readsFrom (op.precedence + 1) c.next found.1 found.2 (by rw [hRhs])).length_le
            cases hFold : mkBinary? op lhs found.1 with
            | none => simp only [hFold]
            | some e => simp only [hFold, ihRest more least e found.2 (by omega)]
    · intro more c h
      rw [Nat.add_right_comm]
      have hNext : c.next.rest.length = c.rest.length - 1 := List.length_tail
      by_cases hEmpty : c.rest.length = 0
      · obtain ⟨tokens, stop⟩ := c
        cases List.length_eq_zero_iff.mp hEmpty
        rfl
      · exact parseOperand_congr (ihOperand more c.next (by omega)) (ihFrom more 0 c.next (by omega))

/-- **Fuel in excess** of what the tokens need changes nothing. -/
theorem parseFrom_eq_parse (h : 2 * c.rest.length + 2 ≤ fuel) : parseFrom scope fuel least c = parse scope least c := by
  obtain ⟨more, rfl⟩ := Nat.exists_eq_add_of_le h
  exact (enough_fuel scope _).1 more least c (Nat.le_refl _)

-- --------
-- What is read
-- --------

/-- Between two cursors stands the phrase `x`, written as `ts`, and it is read as `e`. -/
structure ReadAs (scope : Scope) (least : Nat) (c c' : Cursor) (e : Expr) (x : Phrase) (ts : List Token) : Prop where
  rest    : c.rest = ts ++ c'.rest
  stop    : c'.stop = c.stop
  written : x.WrittenAs ts
  fits    : x.fits least = true
  names   : ∀ name ∈ x.names, scope.reserved name = false
  folded  : x.folded scope = some e

/-- No operator that binds tightly enough is left unread, unless it has no right operand. -/
def Stops (scope : Scope) (least : Nat) (c : Cursor) : Prop :=
  ∀ op, c.operator? = some op → least ≤ op.precedence → (parse scope (op.precedence + 1) c.next).result = none

/-- The phrase can be the left operand of the operator behind it, if that has a right one. -/
def Ready (scope : Scope) (x : Phrase) (c : Cursor) : Prop :=
  ∀ op, c.operator? = some op → (parse scope (op.precedence + 1) c.next).result ≠ none →
    x.fits op.precedence = true

/-- A token that is an operand by itself. -/
theorem readAs_of_atom (hEnds : c.peek.lexeme.endsExpr = true)
    (h : (parseOperand scope (fuel + 1) c).result = some (e, c')) :
    ∃ x ts, x.isOperand = true ∧ ReadAs scope 0 c c' e x ts := by
  obtain ⟨tokens, stop⟩ := c
  cases tokens with
  | nil => cases hEnds
  | cons t rest =>
    obtain ⟨lexeme, s⟩ := t
    cases lexeme with
    | number v =>
      cases h
      exact ⟨.number v s, _, rfl, rfl, rfl, .number v s, rfl, fun _ hMem => absurd hMem List.not_mem_nil, rfl⟩
    | identifier name =>
      cases hReserved : scope.reserved name with
      | true =>
        rw [parseOperand_reserved hReserved] at h
        cases h
      | false =>
        rw [parseOperand_name hReserved] at h
        cases h
        refine ⟨.symbol name s, _, rfl, rfl, rfl, .symbol name s, rfl, fun other hMem => ?_, rfl⟩
        rw [List.mem_singleton.mp hMem]
        exact hReserved
    | mark m =>
      cases m with
      | star =>
        cases h
        exact ⟨.star s, _, rfl, rfl, rfl, .star s, rfl, fun _ hMem => absurd hMem List.not_mem_nil, rfl⟩
      | dollar =>
        cases h
        exact ⟨.dollar s, _, rfl, rfl, rfl, .dollar s, rfl, fun _ hMem => absurd hMem List.not_mem_nil, rfl⟩
      | closeParen => cases h
      | _ => cases hEnds
    | text | newline | endOfInput => cases hEnds

namespace ReadAs

variable {x y : Phrase} {ts us : List Token} {mid : Cursor} {rhs : Expr}

theorem plus (h : ReadAs scope 0 c.next c' e x ts) (hOperand : x.isOperand = true)
    (hPlus : c.peek.lexeme = .mark .plus) : ReadAs scope 0 c c' e x (⟨.mark .plus, c.peek.span⟩ :: ts) where
  rest := by
    rw [Cursor.rest_eq_cons (by rw [hPlus]; rfl), h.rest, ← hPlus]
    rfl
  stop := h.stop
  written := .plus c.peek.span hOperand h.written
  fits := h.fits
  names := h.names
  folded := h.folded

theorem unary {op : UnaryOp} (h : ReadAs scope 0 c.next c' e x ts) (hOperand : x.isOperand = true)
    (hOp : UnaryOp.ofLexeme? c.peek.lexeme = some op) :
    ReadAs scope 0 c c' (mkUnary op e (c.peek.span.through e.span)) (.unary op c.peek.span x)
      (⟨.mark op.mark, c.peek.span⟩ :: ts) where
  rest := by
    rw [Cursor.rest_eq_cons (Lexeme.inExpr_of_unaryOp hOp), h.rest, ← UnaryOp.eq_mark_of_ofLexeme? hOp]
    rfl
  stop := h.stop
  written := .unary op c.peek.span h.written
  fits := Phrase.fits_of_isOperand hOperand h.fits Phrase.operandLevel
  names := h.names
  folded := by rw [Phrase.folded, h.folded, Option.map_some]

theorem paren (h : ReadAs scope 0 c.next mid e x ts) (hOpen : c.peek.lexeme = .mark .openParen)
    (hClose : mid.peek.lexeme = .mark .closeParen) :
    ReadAs scope 0 c mid.next (mkParen e (c.peek.span.through mid.peek.span))
      (.paren c.peek.span mid.peek.span x)
      (⟨.mark .openParen, c.peek.span⟩ :: (ts ++ [⟨.mark .closeParen, mid.peek.span⟩])) where
  rest := by
    rw [Cursor.rest_eq_cons (by rw [hOpen]; rfl), h.rest, @Cursor.rest_eq_cons mid (by rw [hClose]; rfl), ← hOpen,
      ← hClose, List.cons_append, List.append_assoc]
    rfl
  stop := h.stop
  written := .paren c.peek.span mid.peek.span h.written
  fits := h.fits
  names := h.names
  folded := by rw [Phrase.folded, h.folded, Option.map_some]

/-- An operator with its right operand, behind a phrase that can be the left one. -/
theorem binary {op : BinaryOp} {first : Cursor} (h : ReadAs scope least first c lhs x ts)
    (hLevel : x.fits op.precedence = true) (hOp : c.operator? = some op) (hTight : least ≤ op.precedence)
    (hRhs : ReadAs scope (op.precedence + 1) c.next mid rhs y us) (hFold : mkBinary? op lhs rhs = some e) :
    ReadAs scope least first mid e (.binary op c.peek.span x y) (ts ++ ⟨.mark op.mark, c.peek.span⟩ :: us) where
  rest := by
    rw [h.rest, Cursor.rest_eq_cons (Lexeme.inExpr_of_binaryOp hOp), hRhs.rest, ← BinaryOp.eq_mark_of_ofLexeme? hOp,
      List.append_assoc]
    rfl
  stop := hRhs.stop.trans h.stop
  written := .binary op c.peek.span h.written hRhs.written
  fits := by rw [Phrase.fits, hLevel, hRhs.fits, decide_eq_true hTight, Bool.and_self, Bool.and_self]
  names name hMem := (List.mem_append.mp hMem).elim (h.names name) (hRhs.names name)
  folded := by rw [Phrase.folded, h.folded, Option.bind_some, hRhs.folded, Option.bind_some, hFold]

end ReadAs

/-- Behind an operator and its right operand no operator is read that binds tighter. -/
theorem ready_binary {op : BinaryOp} {s : Span} {x y : Phrase} (hLevel : x.fits op.precedence = true)
    (hRight : y.fits (op.precedence + 1) = true) (hStops : Stops scope (op.precedence + 1) c) :
    Ready scope (.binary op s x y) c := by
  intro op' hOp' hRead
  have hLe : op'.precedence ≤ op.precedence := by
    refine Nat.le_of_not_lt fun hLt => ?_
    exact hRead (hStops op' hOp' hLt)
  rw [Phrase.fits, hLevel, hRight, decide_eq_true hLe, Bool.and_self, Bool.and_self]

/-- The invariant of precedence climbing. In `parseRest` the phrase `x` has been read up to `c`; it grows by an
operator and a right operand at a time. -/
theorem readAs_of_fuel (scope : Scope) (fuel : Nat) :
    (∀ least c e c', 2 * c.rest.length + 2 ≤ fuel → (parseFrom scope fuel least c).result = some (e, c') →
      ∃ x ts, ReadAs scope least c c' e x ts ∧ Stops scope least c') ∧
    (∀ least first c lhs x ts e c', 2 * c.rest.length + 1 ≤ fuel → ReadAs scope least first c lhs x ts →
      Ready scope x c → (parseRest scope fuel least lhs c).result = some (e, c') →
      ∃ x ts, ReadAs scope least first c' e x ts ∧ Stops scope least c') ∧
    (∀ c e c', 2 * c.rest.length + 1 ≤ fuel → (parseOperand scope fuel c).result = some (e, c') →
      ∃ x ts, x.isOperand = true ∧ ReadAs scope 0 c c' e x ts) := by
  induction fuel with
  | zero =>
    refine ⟨fun _ _ _ _ h => ?_, fun _ _ _ _ _ _ _ _ h => ?_, fun _ _ _ h => ?_⟩
    · omega
    · omega
    · omega
  | succ fuel ih =>
    obtain ⟨ihFrom, ihRest, ihOperand⟩ := ih
    refine ⟨?_, ?_, ?_⟩
    · intro least c e c' hFuel h
      obtain ⟨lhs, mid, hLhs, hRest⟩ := result_parseFrom h
      obtain ⟨x, ts, hOperand, hRead⟩ := ihOperand c lhs mid (by omega) hLhs
      have hLength := ((reads_of_fuel scope fuel).2.2 c lhs mid hLhs).length_le
      have hFits := Phrase.fits_of_isOperand hOperand hRead.fits
      exact ihRest least c mid lhs x ts e c' (by omega) { hRead with fits := hFits least }
        (fun op _ _ => hFits op.precedence) hRest
    · intro least first c lhs x ts e c' hFuel hRead hReady h
      cases hOp : c.operator? with
      | none =>
        rw [parseRest_of_not_operator hOp] at h
        cases h
        refine ⟨x, ts, hRead, fun op hOp' => ?_⟩
        cases hOp.symm.trans hOp'
      | some op =>
        have hNext := length_of_operator hOp
        have hEnough : parseFrom scope fuel (op.precedence + 1) c.next = parse scope (op.precedence + 1) c.next :=
          parseFrom_eq_parse (by omega)
        by_cases hLoose : op.precedence < least
        · rw [parseRest_of_looser hOp hLoose] at h
          cases h
          refine ⟨x, ts, hRead, fun op' hOp' hTight => ?_⟩
          obtain rfl := Option.some.inj (hOp.symm.trans hOp')
          omega
        rw [result_parseRest hOp (Nat.not_lt.mp hLoose)] at h
        cases hRhs : (parseFrom scope fuel (op.precedence + 1) c.next).result with
        | none =>
          rw [hRhs] at h
          cases h
          refine ⟨x, ts, hRead, fun op' hOp' _ => ?_⟩
          obtain rfl := Option.some.inj (hOp.symm.trans hOp')
          rw [← hEnough, hRhs]
        | some found =>
          obtain ⟨rhs, mid⟩ := found
          rw [hRhs] at h
          obtain ⟨folded, hFold, h⟩ := Option.bind_eq_some_iff.mp h
          have hLevel : x.fits op.precedence = true := by
            refine hReady op hOp ?_
            rw [← hEnough, hRhs]
            exact Option.some_ne_none _
          obtain ⟨y, us, hRight, hStops⟩ := ihFrom (op.precedence + 1) c.next rhs mid (by omega) hRhs
          have hLength := ((reads_of_fuel scope fuel).1 _ c.next rhs mid hRhs).length_le
          exact ihRest least first mid folded _ _ e c' (by omega)
            (hRead.binary hLevel hOp (Nat.not_lt.mp hLoose) hRight hFold) (ready_binary hLevel hRight.fits hStops) h
    · intro c e c' hFuel h
      have hNext : c.next.rest.length = c.rest.length - 1 := List.length_tail
      have hStep := operandStep_of_result h
      have hFirst (hLexeme : c.peek.lexeme.inExpr = true) : c.rest.length ≠ 0 := by
        rw [Cursor.rest_eq_cons hLexeme]
        exact Nat.succ_ne_zero _
      cases hStep with
      | atom hEnds => exact readAs_of_atom hEnds h
      | plus hPlus hRun =>
        have hSome := hFirst (by rw [hPlus]; rfl)
        obtain ⟨x, ts, hOperand, hRead⟩ := ihOperand c.next e c' (by omega) hRun
        exact ⟨x, _, hOperand, hRead.plus hOperand hPlus⟩
      | @paren inner mid _ close hOpen hInner hClose =>
        have hSome := hFirst (by rw [hOpen]; rfl)
        obtain ⟨x, ts, hRead, -⟩ := ihFrom 0 c.next inner mid (by omega) hInner
        obtain ⟨hLexeme, rfl, rfl⟩ := Cursor.eat?_mark_eq_some.mp hClose
        exact ⟨_, _, rfl, hRead.paren hOpen hLexeme⟩
      | @unary op operand _ hOp hRun =>
        have hSome := hFirst (Lexeme.inExpr_of_unaryOp hOp)
        obtain ⟨x, ts, hOperand, hRead⟩ := ihOperand c.next operand c' (by omega) hRun
        exact ⟨_, _, rfl, hRead.unary hOperand hOp⟩

/-- **Only phrases are read as expressions**, and each as what is left of its tree. -/
theorem readAs_of_parse (h : (parse scope least c).result = some (e, c')) :
    ∃ x ts, ReadAs scope least c c' e x ts := by
  obtain ⟨x, ts, hRead, -⟩ := (readAs_of_fuel scope (2 * c.rest.length + 2)).1 least c e c' (Nat.le_refl _) h
  exact ⟨x, ts, hRead⟩

/-- What is read evaluates like the phrase, whatever is defined later. -/
theorem ReadAs.evaluate {x : Phrase} {ts : List Token} (h : ReadAs scope least c c' e x ts)
    (more : List Symbol) (base : Value) :
    (scope.symbols.defineAll more).evaluate base e =
      (scope.symbols.defineAll more).evaluate base (x.tree scope.counter) :=
  (Phrase.stands_folded h.folded).evaluate base _
    (SymbolTable.agrees_valueOf (scope.symbols.prefix_defineAll more) base)

end Expr

end CrossAsm
