import CrossAsm.Proofs.Expr.Recognition
import CrossAsm.Proofs.Operand
import CrossAsm.Z80

/-!
# CrossAsm — indirection by parentheses

In the operands of LD, IN and OUT parentheses around an address make it one in memory or a port. Whether there are
any is decided by the expression that was read, after folding; here it is said by the tokens.

* `Token.Enclosed` — the first token opens parentheses and the last one closes them.
* `Phrase.WrittenAs.isParen_iff` — of the phrases that open with a parenthesis, those are what is in parentheses as a
  whole.
* `grammar_of_expr` — what becomes of an operand that is an expression.
* `indirect_iff_enclosed` — so it is indirect exactly if its tokens are enclosed.
-/

namespace CrossAsm

-- --------
-- Matching parentheses
-- --------

namespace Token

/-- The tokens behind the parenthesis that closes what was opened in front of all of them. Inside, `depth` more
parentheses are open. -/
def behindClosing : Nat → List Token → Option (List Token)
  | _, [] => none
  | depth, t :: ts =>
    match t.lexeme with
    | .mark .openParen => behindClosing (depth + 1) ts
    | .mark .closeParen =>
      match depth with
      | 0 => some ts
      | depth + 1 => behindClosing depth ts
    | _ => behindClosing depth ts

/-- The first token opens parentheses, and the token that closes them is the last one. -/
def Enclosed (ts : List Token) : Prop :=
  ∃ opening inside, ts = opening :: inside ∧ opening.lexeme = .mark .openParen ∧ behindClosing 0 inside = some []

end Token

open Token

/-- Whether a phrase is in parentheses as a whole. -/
def Phrase.isParen : Phrase → Bool
  | .paren .. => true
  | _ => false

namespace Phrase.WrittenAs

variable {x : Phrase} {ts : List Token}

/-- A phrase closes the parentheses that it opens, and no others. -/
theorem behindClosing_append (h : x.WrittenAs ts) (depth : Nat) (rest : List Token) :
    behindClosing depth (ts ++ rest) = behindClosing depth rest := by
  induction h generalizing depth rest with
  | number v s | symbol name s | star s | dollar s => rfl
  | unary op s _ ih =>
    cases op with
    | _ => exact ih depth rest
  | binary op s _ _ ihl ihr =>
    rw [List.append_assoc, ihl]
    cases op with
    | _ => exact ihr depth rest
  | paren opening closing _ ih =>
    show behindClosing (depth + 1) (_ ++ _ ++ rest) = _
    rw [List.append_assoc, ih]
    rfl
  | plus s _ _ ih => exact ih depth rest

/-- Where the parenthesis is closed that a phrase opens with: at its end if the phrase is in parentheses as a whole, and
in front of an operator otherwise. -/
theorem exists_behindClosing {opening : Token} {inside : List Token} (h : x.WrittenAs (opening :: inside))
    (hOpen : opening.lexeme = .mark .openParen) :
    ∃ behind, (∀ rest, behindClosing 0 (inside ++ rest) = some (behind ++ rest)) ∧ (x.isParen = true ↔ behind = []) := by
  generalize hTokens : opening :: inside = tokens at h
  induction h generalizing opening inside with
  | number v s | symbol name s | star s | dollar s | plus s =>
    cases hTokens
    cases hOpen
  | unary op s =>
    cases hTokens
    cases op with
    | _ => cases hOpen
  | @binary l r ls rs op s hl hr ihl =>
    obtain ⟨first, others, rfl⟩ := List.exists_cons_of_ne_nil hl.ne_nil
    obtain ⟨rfl, rfl⟩ := List.cons.inj (hTokens.trans List.cons_append)
    obtain ⟨behind, hBehind, -⟩ := ihl hOpen rfl
    refine ⟨behind ++ ⟨.mark op.mark, s⟩ :: rs, fun rest => ?_, ?_⟩
    · rw [List.append_assoc, hBehind, List.append_assoc]
    · constructor
      · intro hParen
        cases hParen
      · intro hNil
        exact absurd (List.append_eq_nil_iff.mp hNil).2 (List.cons_ne_nil _ _)
  | paren opening closing hx =>
    cases hTokens
    refine ⟨[], fun rest => ?_, iff_of_true rfl rfl⟩
    rw [List.append_assoc, hx.behindClosing_append]
    rfl

/-- **The phrase and its tokens agree** on whether it is in parentheses as a whole. -/
theorem isParen_iff {opening : Token} {inside : List Token} (h : x.WrittenAs (opening :: inside))
    (hOpen : opening.lexeme = .mark .openParen) : x.isParen = true ↔ Enclosed (opening :: inside) := by
  obtain ⟨behind, hBehind, hParen⟩ := h.exists_behindClosing hOpen
  have hAlone : behindClosing 0 inside = some behind := by simpa only [List.append_nil] using hBehind []
  rw [hParen]
  constructor
  · rintro rfl
    exact ⟨opening, inside, rfl, hOpen, hAlone⟩
  · rintro ⟨_, _, hTokens, -, hEnd⟩
    cases hTokens
    exact Option.some.inj (hAlone.symm.trans hEnd)

/-- The names in the tokens are those of the phrase. -/
theorem name_mem {t : Token} {name : String} (h : x.WrittenAs ts) (hMem : t ∈ ts)
    (hName : t.lexeme.name? = some name) : name ∈ x.names := by
  induction h with
  | symbol other s =>
    cases List.mem_singleton.mp hMem
    cases hName
    exact List.mem_singleton_self _
  | number v s | star s | dollar s =>
    cases List.mem_singleton.mp hMem
    cases hName
  | unary op s _ ih =>
    rcases List.mem_cons.mp hMem with rfl | hMem
    · cases hName
    · exact ih hMem
  | binary op s _ _ ihl ihr =>
    rcases List.mem_append.mp hMem with hMem | hMem
    · exact List.mem_append_left _ (ihl hMem)
    · rcases List.mem_cons.mp hMem with rfl | hMem
      · cases hName
      · exact List.mem_append_right _ (ihr hMem)
  | paren opening closing _ ih =>
    rcases List.mem_cons.mp hMem with rfl | hMem
    · cases hName
    · rcases List.mem_append.mp hMem with hMem | hMem
      · exact ih hMem
      · cases List.mem_singleton.mp hMem
        cases hName
  | plus s _ _ ih =>
    rcases List.mem_cons.mp hMem with rfl | hMem
    · cases hName
    · exact ih hMem

end Phrase.WrittenAs

-- --------
-- Folding
-- --------

theorem Expr.isParen_mkBinary? {op : BinaryOp} {l r e : Expr} (h : mkBinary? op l r = some e) : e.isParen = false := by
  unfold mkBinary? at h
  split at h
  · obtain ⟨v, -, rfl⟩ := Option.map_eq_some_iff.mp h
    rfl
  · cases h
    rfl

theorem Expr.evaluate_stripParen (t : SymbolTable) (base : Value) (e : Expr) :
    t.evaluate base e.stripParen = t.evaluate base e := by
  cases e <;> rfl

/-- Parentheses are never folded away, and no operator leaves any. -/
theorem Phrase.isParen_folded {x : Phrase} {scope : Scope} {e : Expr} {opening : Token} {inside : List Token}
    (h : x.folded scope = some e) (hWritten : x.WrittenAs (opening :: inside))
    (hOpen : opening.lexeme = .mark .openParen) : e.isParen = x.isParen := by
  generalize hTokens : opening :: inside = tokens at hWritten
  cases hWritten with
  | number v s | symbol name s | star s | dollar s | plus s =>
    cases hTokens
    cases hOpen
  | unary op s =>
    cases hTokens
    cases op with
    | _ => cases hOpen
  | binary op s =>
    obtain ⟨a, -, h⟩ := Option.bind_eq_some_iff.mp h
    obtain ⟨b, -, h⟩ := Option.bind_eq_some_iff.mp h
    exact Expr.isParen_mkBinary? h
  | paren opening closing hx =>
    obtain ⟨a, -, rfl⟩ := Option.map_eq_some_iff.mp h
    rfl

namespace Expr.ReadAs

variable {scope : Scope} {least : Nat} {c c' : Cursor} {e : Expr} {x : Phrase} {ts : List Token}

theorem exists_cons (h : ReadAs scope least c c' e x ts) : ∃ inside, ts = c.peek :: inside := by
  obtain ⟨first, inside, rfl⟩ := List.exists_cons_of_ne_nil h.written.ne_nil
  refine ⟨inside, ?_⟩
  unfold Cursor.peek
  rw [h.rest]
  rfl

/-- A parenthesis is not the last token of an expression that it opens. -/
theorem next_peek_mem (h : ReadAs scope least c c' e x ts) (hOpen : c.peek.lexeme = .mark .openParen) :
    c.next.peek ∈ ts := by
  obtain ⟨inside, rfl⟩ := h.exists_cons
  obtain ⟨behind, hBehind, -⟩ := h.written.exists_behindClosing hOpen
  cases inside with
  | nil => cases hBehind []
  | cons t inside =>
    have hNext : c.next.peek = t := by
      unfold Cursor.peek Cursor.next
      rw [h.rest]
      rfl
    rw [hNext]
    exact List.mem_cons_of_mem _ List.mem_cons_self

theorem not_reserved {t : Token} {name : String} (h : ReadAs scope least c c' e x ts) (hMem : t ∈ ts)
    (hName : t.lexeme.name? = some name) : scope.reserved name = false :=
  h.names name (h.written.name_mem hMem hName)

/-- Where an expression opens with a parenthesis, its outermost node tells whether its tokens are enclosed. -/
theorem isParen_iff (h : ReadAs scope least c c' e x ts) (hOpen : c.peek.lexeme = .mark .openParen) :
    e.isParen = true ↔ Enclosed ts := by
  obtain ⟨inside, rfl⟩ := h.exists_cons
  rw [Phrase.isParen_folded h.folded h.written hOpen, h.written.isParen_iff hOpen]

theorem opens_of_enclosed (h : ReadAs scope least c c' e x ts) (hEnclosed : Enclosed ts) :
    c.peek.lexeme = .mark .openParen := by
  obtain ⟨inside, rfl⟩ := h.exists_cons
  obtain ⟨_, _, hTokens, hOpen, -⟩ := hEnclosed
  cases hTokens
  exact hOpen

end Expr.ReadAs

namespace Z80

-- --------
-- Expressions as operands
-- --------

/-- A name that is not reserved stands for nothing. -/
theorem unnamed_of_not_reserved {name : String} (h : isReserved name = false) :
    named? Reg.names name = none ∧ named? Pair.names name = none ∧ named? Index.names name = none ∧
      named? SpecialReg.names name = none ∧ named? Condition.names name = none ∧
      Text.sameWord name "af" = false ∧ Text.sameWord name "af'" = false := by
  simpa only [isReserved, Bool.or_eq_false_iff, Option.isSome_eq_false_iff, Option.isNone_iff_eq_none, and_assoc] using h

theorem namedOperand?_of_not_reserved {name : String} (h : isReserved name = false) (allowed : Modes) (span : Span) :
    namedOperand? allowed name span = none := by
  obtain ⟨hReg, hPair, hIndex, hSpecial, hCondition, hFlags, hAlternate⟩ := unnamed_of_not_reserved h
  unfold namedOperand?
  rw [hReg, hPair, hIndex, hSpecial, hCondition, hFlags, hAlternate]
  rfl

theorem not_portC_of_not_reserved {name : String} (h : isReserved name = false) : Text.sameWord name "c" = false := by
  have hReg := (unnamed_of_not_reserved h).1
  have hNone := List.find?_eq_none.mp (Option.map_eq_none_iff.mp hReg) ("c", Reg.c) (by decide)
  exact Bool.eq_false_of_not_eq_true hNone

section Forms

variable {scope : Scope} {allowed : Modes} {c c' : Cursor} {e : Expr}

/-- The token is not the name of a register or condition. -/
def Unreserved (t : Token) : Prop := ∀ name, t.lexeme.name? = some name → isReserved name = false

theorem named_of_unreserved (h : Unreserved c.peek) : named allowed c = .nothing := by
  have hToken : Parser.advance c = .done c.peek c.next := rfl
  have hNone : c.peek.lexeme.name?.bind (namedOperand? allowed · c.peek.span) = none := by
    refine Option.bind_eq_none_iff.mpr fun name hName => ?_
    exact namedOperand?_of_not_reserved (h name hName) allowed c.peek.span
  unfold named
  rw [Parser.bind_of_done hToken]
  simp only [hNone]
  rfl

theorem mark_openParen (hOpen : c.peek.lexeme = .mark .openParen) :
    Parser.mark .openParen c = .done c.peek c.next :=
  Parser.mark_of_eat? (Cursor.eat?_mark_eq_some.mpr ⟨hOpen, rfl, rfl⟩)

theorem registerIndirect_of_unreserved (hOpen : c.peek.lexeme = .mark .openParen) (h : Unreserved c.next.peek) :
    registerIndirect c = .nothing := by
  have hToken : Parser.advance c.next = .done c.next.peek c.next.next := rfl
  unfold registerIndirect
  rw [Parser.bind_of_done (mark_openParen hOpen), Parser.bind_of_done hToken]
  cases hClose : c.next.next.eat? (.mark .closeParen) with
  | none => exact Parser.bind_of_nothing (Parser.mark_of_eat?_none hClose)
  | some found =>
    rw [Parser.bind_of_done (Parser.mark_of_eat? hClose)]
    cases hName : c.next.peek.lexeme.name? with
    | none => rfl
    | some name =>
      simp only [not_portC_of_not_reserved (h name hName), Bool.false_eq_true, if_false,
        (unnamed_of_not_reserved (h name hName)).2.1]
      rfl

theorem indexed_of_unreserved (hOpen : c.peek.lexeme = .mark .openParen) (h : Unreserved c.next.peek) :
    indexed scope c = .nothing := by
  have hToken : Parser.advance c.next = .done c.next.peek c.next.next := rfl
  have hNone : c.next.peek.lexeme.name?.bind (named? Index.names) = none := by
    refine Option.bind_eq_none_iff.mpr fun name hName => ?_
    exact (unnamed_of_not_reserved (h name hName)).2.2.1
  unfold indexed
  rw [Parser.bind_of_done (mark_openParen hOpen), Parser.bind_of_done hToken]
  simp only [hNone]
  rfl

/-- The mode of an indirect operand. -/
def indirectMode (allowed : Modes) : Mode := if Mode.ioPort ∈ allowed then .ioPort else .memory

theorem memory_of_isParen (hRun : Expr.parse scope 0 c = .done e c') (hEnd : c'.atOperandEnd = true)
    (hParen : e.isParen = true) :
    memory scope allowed c = .done (.withValue (indirectMode allowed) e.stripParen e.span) c' := by
  unfold memory
  rw [Parser.bind_of_done hRun]
  simp only [hParen, if_true]
  exact Parser.atEnd_of_end hEnd

theorem memory_of_not_isParen (hRun : Expr.parse scope 0 c = .done e c') (hParen : e.isParen = false) :
    memory scope allowed c = .nothing := by
  unfold memory
  rw [Parser.bind_of_done hRun]
  simp only [hParen, Bool.false_eq_true, if_false]
  rfl

theorem plain_of_parse (hAddress : Mode.address ∉ allowed) (hRelative : Mode.relative ∉ allowed)
    (hRun : Expr.parse scope 0 c = .done e c') :
    plain scope allowed c = .done (.withValue .immediate e e.span) c' := by
  unfold plain
  rw [Parser.bind_of_done hRun]
  simp only [hAddress, hRelative, if_false]
  rfl

theorem not_atOperandEnd_of_parse (hRun : Expr.parse scope 0 c = .done e c') : c.atOperandEnd = false := by
  have hStarts := Expr.startsExpr_of_parse hRun
  unfold Cursor.atOperandEnd
  cases hLexeme : c.peek.lexeme with
  | mark m =>
    rw [hLexeme] at hStarts
    cases m with
    | comma => cases hStarts
    | _ => rfl
  | newline | endOfInput =>
    rw [hLexeme] at hStarts
    cases hStarts
  | _ => rfl

theorem parenthesized_of_unreserved (hOpen : c.peek.lexeme = .mark .openParen) (h : Unreserved c.next.peek) :
    parenthesized scope allowed c = Parser.when (allowed.meets {.memory, .ioPort}) (memory scope allowed) c := by
  unfold parenthesized
  rw [Parser.orElse_of_nothing (registerIndirect_of_unreserved hOpen h),
    Parser.orElse_of_nothing (Parser.when_of_nothing fun _ => indexed_of_unreserved hOpen h)]

variable {machine : Machine Feature} {request : Request Mode} {x : Phrase} {ts : List Token}

theorem grammar_of_unreserved (hEnd : c.atOperandEnd = false) (hFirst : Unreserved c.peek) :
    grammar scope machine request c =
      (Parser.when (c.isAt (.mark .openParen)) (parenthesized scope request.allowed) <|>
        plain scope request.allowed) c := by
  change (if c.atOperandEnd then _ else _ : Parser (Operand Mode)) c = _
  rw [if_neg (ne_true_of_eq_false hEnd), Parser.orElse_of_nothing (named_of_unreserved hFirst)]

theorem unreserved_of_readAs {t : Token} (hRead : Expr.ReadAs scope 0 c c' e x ts)
    (hReserved : scope.reserved = isReserved) (hMem : t ∈ ts) : Unreserved t := by
  intro name hName
  rw [← hReserved]
  exact hRead.not_reserved hMem hName

/-- An expression in parentheses as a whole is an indirect operand where there is one. -/
theorem grammar_of_enclosed (hRead : Expr.ReadAs scope 0 c c' e x ts) (hReserved : scope.reserved = isReserved)
    (hIndirect : request.allowed.meets {.memory, .ioPort} = true) (hRun : Expr.parse scope 0 c = .done e c')
    (hEnd : c'.atOperandEnd = true) (hEnclosed : Enclosed ts) :
    grammar scope machine request c = .done (.withValue (indirectMode request.allowed) e.stripParen e.span) c' := by
  have hOpen := hRead.opens_of_enclosed hEnclosed
  have hFirst : Unreserved c.peek := by
    intro name hName
    rw [hOpen] at hName
    cases hName
  have hSecond := unreserved_of_readAs hRead hReserved (hRead.next_peek_mem hOpen)
  have hAt : c.isAt (.mark .openParen) = true := by
    rw [Cursor.isAt, hOpen]
    rfl
  rw [grammar_of_unreserved (not_atOperandEnd_of_parse hRun) hFirst, hAt]
  refine Parser.orElse_of_done ?_
  show parenthesized scope request.allowed c = _
  rw [parenthesized_of_unreserved hOpen hSecond, hIndirect]
  exact memory_of_isParen hRun hEnd ((hRead.isParen_iff hOpen).mpr hEnclosed)

/-- Any other expression is an immediate operand. -/
theorem grammar_of_not_enclosed (hRead : Expr.ReadAs scope 0 c c' e x ts) (hReserved : scope.reserved = isReserved)
    (hAddress : Mode.address ∉ request.allowed) (hRelative : Mode.relative ∉ request.allowed)
    (hRun : Expr.parse scope 0 c = .done e c') (hEnclosed : ¬ Enclosed ts) :
    grammar scope machine request c = .done (.withValue .immediate e e.span) c' := by
  have hFirst : Unreserved c.peek := by
    obtain ⟨inside, hTokens⟩ := hRead.exists_cons
    exact unreserved_of_readAs hRead hReserved (by rw [hTokens]; exact List.mem_cons_self)
  have hParenthesized :
      Parser.when (c.isAt (.mark .openParen)) (parenthesized scope request.allowed) c = .nothing := by
    refine Parser.when_of_nothing fun hAt => ?_
    have hOpen : c.peek.lexeme = .mark .openParen := (Cursor.eat?_mark_eq_some.mp (if_pos hAt)).1
    have hSecond := unreserved_of_readAs hRead hReserved (hRead.next_peek_mem hOpen)
    have hParen : e.isParen = false :=
      Bool.eq_false_of_not_eq_true fun hParen => hEnclosed ((hRead.isParen_iff hOpen).mp hParen)
    rw [parenthesized_of_unreserved hOpen hSecond]
    exact Parser.when_of_nothing fun _ => memory_of_not_isParen hRun hParen
  rw [grammar_of_unreserved (not_atOperandEnd_of_parse hRun) hFirst, Parser.orElse_of_nothing hParenthesized]
  exact plain_of_parse hAddress hRelative hRun

end Forms

-- --------
-- Slots
-- --------

/-- The modes that the operands of an instruction may have, operand by operand. -/
def slots (m : Mnemonic) : List Modes := (entry m).first :: (entry m).second.toList

/-- The modes of operands at an address in memory or at a port. -/
def indirectModes : Modes := {.memory, .ioPort}

/-- Where an indirect operand is allowed, only one kind of them is, and no target. -/
theorem modes_of_slot {m : Mnemonic} {allowed : Modes} (hSlot : allowed ∈ slots m)
    (hIndirect : allowed.meets indirectModes = true) :
    indirectMode allowed ∈ allowed ∧ Mode.address ∉ allowed ∧ Mode.relative ∉ allowed := by
  have hAll : ∀ m ∈ Mnemonic.all, ∀ allowed ∈ slots m, allowed.meets indirectModes = true →
      indirectMode allowed ∈ allowed ∧ Mode.address ∉ allowed ∧ Mode.relative ∉ allowed := by decide +kernel
  exact hAll m (Mnemonic.mem_all m) allowed hSlot hIndirect

theorem resolve_of_grammar {scope : Scope} {machine : Machine Feature} {request : Request Mode} {c c' : Cursor}
    {o : Operand Mode} (h : grammar scope machine request c = .done o c') :
    family.resolve scope machine request c = if o.mode ∈ request.allowed then .done o c' else .nothing := by
  have hPairs : ∀ pair ∈ family.narrowing, pair.2 ∉ request.allowed := fun _ hMem => absurd hMem List.not_mem_nil
  show Operand.resolve (grammar scope machine request) family.narrowing machine request.allowed c = _
  unfold Operand.resolve
  rw [Parser.bind_of_done h, Operand.narrow_eq_pure hPairs, ite_self]
  show (if o.mode ∈ request.allowed then pure o else Parser.fail : Parser (Operand Mode)) c' = _
  split <;> rfl

/-- **Indirection by parentheses.** Where an operand may be in memory or at a port, let its tokens `ts` be read as an
expression up to its end and without problems. Then it is in memory or at a port exactly if the tokens are enclosed in
parentheses as a whole. Otherwise it is an immediate where one is allowed, and nothing where none is. In both cases the
operand carries the value that the tokens have by the operator grammar, whatever is defined later and wherever the
program is placed. -/
theorem indirect_iff_enclosed {m : Mnemonic} {allowed : Modes} {symbols : SymbolTable} {counter e : Expr}
    {ts rest : List Token} {stop : Nat} (hSlot : allowed ∈ slots m) (hIndirect : allowed.meets indirectModes = true)
    (hRun : Expr.parse ⟨symbols, counter, isReserved⟩ 0 ⟨ts ++ rest, stop⟩ = .done e ⟨rest, stop⟩)
    (hEnd : Cursor.atOperandEnd ⟨rest, stop⟩ = true) (machine : Machine Feature) (width : ImmediateWidth)
    (implied : Option Nat) :
    let outcome :=
      family.resolve ⟨symbols, counter, isReserved⟩ machine ⟨allowed, width, implied⟩ ⟨ts ++ rest, stop⟩
    ((∃ o, outcome = .done o ⟨rest, stop⟩ ∧ o.mode ∈ indirectModes) ↔ Enclosed ts) ∧
      (¬ Enclosed ts →
        if Mode.immediate ∈ allowed then ∃ o, outcome = .done o ⟨rest, stop⟩ ∧ o.mode = .immediate
        else outcome = .nothing) ∧
      ∃ x : Phrase, x.WrittenAs ts ∧ x.fits 0 = true ∧
        ∀ o c', outcome.result = some (o, c') → ∃ v, o.values = [v] ∧
          ∀ more base, (symbols.defineAll more).evaluate base v =
            (symbols.defineAll more).evaluate base (x.tree counter) := by
  intro outcome
  obtain ⟨x, taken, hRead⟩ := Expr.readAs_of_parse (congrArg Outcome.result hRun)
  obtain rfl : ts = taken := List.append_cancel_right hRead.rest
  obtain ⟨hMode, hAddress, hRelative⟩ := modes_of_slot hSlot hIndirect
  by_cases hEnclosed : Enclosed ts
  · have hOutcome : outcome = .done (.withValue (indirectMode allowed) e.stripParen e.span) ⟨rest, stop⟩ :=
      (resolve_of_grammar (grammar_of_enclosed hRead rfl hIndirect hRun hEnd hEnclosed)).trans (if_pos hMode)
    have hModes : indirectMode allowed ∈ indirectModes := by
      unfold indirectMode
      split <;> decide
    refine ⟨iff_of_true ⟨_, hOutcome, hModes⟩ hEnclosed, fun hNot => absurd hEnclosed hNot, x, hRead.written, hRead.fits,
      fun o c' hResult => ?_⟩
    rw [hOutcome] at hResult
    cases hResult
    refine ⟨_, rfl, fun more base => ?_⟩
    rw [Expr.evaluate_stripParen, hRead.evaluate more base]
  · have hOutcome : outcome =
        if Mode.immediate ∈ allowed then .done (.withValue .immediate e e.span) ⟨rest, stop⟩ else .nothing :=
      resolve_of_grammar (grammar_of_not_enclosed hRead rfl hAddress hRelative hRun hEnclosed)
    by_cases hImmediate : Mode.immediate ∈ allowed
    · rw [if_pos hImmediate] at hOutcome ⊢
      refine ⟨iff_of_false ?_ hEnclosed, fun _ => ⟨_, hOutcome, rfl⟩, x, hRead.written, hRead.fits,
        fun o c' hResult => ?_⟩
      · rintro ⟨o, hDone, hKind⟩
        cases hOutcome.symm.trans hDone
        have hNot : Mode.immediate ∉ indirectModes := by decide
        exact hNot hKind
      · rw [hOutcome] at hResult
        cases hResult
        exact ⟨_, rfl, hRead.evaluate⟩
    · rw [if_neg hImmediate] at hOutcome ⊢
      refine ⟨iff_of_false ?_ hEnclosed, fun _ => hOutcome, x, hRead.written, hRead.fits, fun o c' hResult => ?_⟩
      · rintro ⟨o, hDone, -⟩
        cases hOutcome.symm.trans hDone
      · rw [hOutcome] at hResult
        cases hResult

/-- `(n)+(1)` opens and closes with parentheses, which are not the same ones. -/
theorem indirect_iff_enclosed_sum :
    let ts : List Token := [⟨.mark .openParen, ⟨5, 1⟩⟩, ⟨.identifier "n", ⟨6, 1⟩⟩, ⟨.mark .closeParen, ⟨7, 1⟩⟩,
      ⟨.mark .plus, ⟨8, 1⟩⟩, ⟨.mark .openParen, ⟨9, 1⟩⟩, ⟨.number 1, ⟨10, 1⟩⟩, ⟨.mark .closeParen, ⟨11, 1⟩⟩]
    let machine : Machine Feature := ⟨{.z80}, 0, true⟩
    let allowed := loadOperand ∪ {.immediate}
    allowed ∈ slots .ld ∧ ¬ Enclosed ts ∧
      ∃ o, family.resolve ⟨{}, .const 0 ⟨0, 0⟩, isReserved⟩ machine ⟨allowed, .word, none⟩ ⟨ts, 12⟩ = .done o ⟨[], 12⟩ ∧
        o.mode = .immediate := by
  intro ts machine allowed
  have hOpen : ¬ Enclosed ts := by
    rintro ⟨opening, inside, hTokens, -, hLast⟩
    obtain ⟨rfl, rfl⟩ := List.cons.inj hTokens
    cases hLast
  have hSlot : allowed ∈ slots .ld := List.mem_cons_of_mem _ List.mem_cons_self
  let x : Phrase := .binary .add ⟨8, 1⟩ (.paren ⟨5, 1⟩ ⟨7, 1⟩ (.symbol "n" ⟨6, 1⟩))
    (.paren ⟨9, 1⟩ ⟨11, 1⟩ (.number 1 ⟨10, 1⟩))
  have hNames : ∀ name ∈ x.names, isReserved name = false := by
    intro name hName
    obtain rfl := List.mem_singleton.mp hName
    decide +kernel
  have hRun : Expr.parse ⟨{}, .const 0 ⟨0, 0⟩, isReserved⟩ 0 ⟨ts ++ [], 12⟩ =
      .done (.binary .add (.paren (.symbol "n" ⟨6, 1⟩) ⟨5, 3⟩) (.paren (.const 1 ⟨10, 1⟩) ⟨9, 3⟩) ⟨5, 7⟩) ⟨[], 12⟩ :=
    Phrase.parse_of_folded (x := x) rfl hNames rfl rfl
  obtain ⟨-, hImmediate, -⟩ := indirect_iff_enclosed hSlot (by decide) hRun rfl machine .word none
  exact ⟨hSlot, hOpen, hImmediate hOpen⟩

end Z80

end CrossAsm
