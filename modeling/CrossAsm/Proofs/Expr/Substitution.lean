import CrossAsm.Proofs.Expr.Folding
import CrossAsm.Proofs.Reading
import CrossAsm.Proofs.Symbol

/-!
# CrossAsm — symbols that are replaced by their values

While an expression is parsed, a symbol whose value is known is replaced by it and folding goes on above it;
every other symbol waits until the program is linked. Definitions only come behind the others until then, so
both ways give the same result.

* `SymbolTable.defineAll` — the table after more definitions, of which some may be refused.
* `Stands` — an expression that evaluates like another one wherever the known symbols have their values.
* `follows_of_fuel` — a parse that knows symbols and one that knows none go the same way.
* `known_symbols_evaluate_as_linked` — so knowing symbols early does not change what is linked.
-/

namespace CrossAsm

/-- The same scope without any symbols. -/
def Scope.withoutSymbols (scope : Scope) : Scope := { scope with symbols := {} }

-- --------
-- Tables that grow
-- --------

namespace SymbolTable

variable {t t' : SymbolTable} {name : String} {v : Value}

/-- The table after more definitions. That of a name which has a definition is refused. -/
def defineAll (t : SymbolTable) (more : List Symbol) : SymbolTable :=
  more.foldl (fun t s => (t.define s.name s.value s.definition).toOption.getD t) t

theorem prefix_defineAll (t : SymbolTable) (more : List Symbol) :
    t.symbols <+: (t.defineAll more).symbols := by
  induction more generalizing t with
  | nil => exact List.prefix_refl _
  | cons s more ih =>
    have hFirst :
        t.symbols <+: ((t.define s.name s.value s.definition).toOption.getD t).symbols := by
      cases hDefine : t.define s.name s.value s.definition with
      | error d => exact List.prefix_refl _
      | ok t' => exact prefix_of_define hDefine
    exact hFirst.trans (ih _)

theorem lookup_eq_constant :
    t.lookup name = .constant v ↔ ∃ s, t.find? name = some s ∧ s.value.value? = some v := by
  unfold lookup
  cases t.find? name with
  | none => simp
  | some s => cases hValue : s.value.value? <;> simp [hValue]

/-- The look-up gives every value that the table knows. -/
def Agrees (t : SymbolTable) (look : String → Span → Except Diagnostic Value) : Prop :=
  ∀ name usage v, t.lookup name = .constant v → look name usage = .ok v

/-- A value that is known is the value when the program is linked. -/
theorem agrees_valueOf (h : t.symbols <+: t'.symbols) (base : Value) :
    t.Agrees (t'.valueOf base t'.symbols) := by
  intro name usage v hKnown
  obtain ⟨s, hFind, hValue⟩ := lookup_eq_constant.mp hKnown
  have hFind' : t'.find? name = some s := find?_mono h hFind
  unfold valueOf
  split
  · next x hx =>
    obtain rfl := Option.some.inj (hFind'.symm.trans hx)
    exact Expr.evaluate_of_value? hValue
  · next hNone =>
    rw [show t'.find? name = none from hNone] at hFind'
    cases hFind'

end SymbolTable

namespace Expr

-- --------
-- Expressions that stand for each other
-- --------

/-- Both expressions are at one place and evaluate alike wherever the symbols have the values that the
table knows. -/
structure Stands (t : SymbolTable) (e x : Expr) : Prop where
  span : e.span = x.span
  evaluate : ∀ base look, t.Agrees look → e.evaluate base look = x.evaluate base look

namespace Stands

variable {t : SymbolTable} {e x y l r lx rx : Expr}

theorem refl (e : Expr) : Stands t e e := ⟨rfl, fun _ _ _ => rfl⟩

theorem symm (h : Stands t e x) : Stands t x e :=
  ⟨h.span.symm, fun base look hLook => (h.evaluate base look hLook).symm⟩

theorem trans (h : Stands t e x) (h' : Stands t x y) : Stands t e y :=
  ⟨h.span.trans h'.span, fun base look hLook =>
    (h.evaluate base look hLook).trans (h'.evaluate base look hLook)⟩

theorem of_tracks (h : Tracks e x) : Stands t e x := ⟨h.span_eq, fun base look _ => h.evaluate_eq base look⟩

/-- A name and its value, if that is known. -/
theorem ofName (scope : Scope) (name : String) (s : Span) :
    Stands scope.symbols (ofName scope name s) (.symbol name s) := by
  unfold Expr.ofName
  cases hKnown : scope.symbols.lookup name with
  | constant v => exact ⟨rfl, fun base look hLook => (hLook name s v hKnown).symm⟩
  | deferred => exact refl _
  | undefined => exact refl _

theorem paren (h : Stands t e x) (s : Span) : Stands t (.paren e s) (.paren x s) :=
  ⟨rfl, h.evaluate⟩

/-- A folded operation and the plain one on operands that stand for its operands. -/
theorem mkUnary (h : Stands t e x) (op : UnaryOp) (s : Span) :
    Stands t (mkUnary op e s) (.unary op x s) := by
  refine (of_tracks ((Tracks.refl e).mkUnary op s)).trans ⟨rfl, ?_⟩
  intro base look hLook
  simp only [Expr.evaluate, h.evaluate base look hLook]

theorem mkBinary? {op : BinaryOp} (hl : Stands t l lx) (hr : Stands t r rx)
    (h : mkBinary? op l r = some e) : Stands t e (.binary op lx rx (lx.span.hull rx.span)) := by
  refine (of_tracks ((Tracks.refl l).mkBinary? (Tracks.refl r) h)).trans ⟨?_, ?_⟩
  · show l.span.hull r.span = lx.span.hull rx.span
    rw [hl.span, hr.span]
  · intro base look hLook
    simp only [Expr.evaluate, hl.evaluate base look hLook, hr.evaluate base look hLook, hr.span]

end Stands

-- --------
-- Expressions with and without the known symbols
-- --------

/-- `e` is `x` with known symbols replaced: it stands for `x` and is constant wherever `x` is. -/
structure Replaces (t : SymbolTable) (e x : Expr) : Prop extends Stands t e x where
  value : ∀ v, x.value? = some v → e.value? = some v

namespace Replaces

variable {t : SymbolTable} {e x l r lx rx : Expr}

theorem refl (e : Expr) : Replaces t e e := ⟨.refl e, fun _ h => h⟩

theorem ofName (scope : Scope) (name : String) (s : Span) :
    Replaces scope.symbols (ofName scope name s) (ofName scope.withoutSymbols name s) :=
  ⟨.ofName scope name s, nofun⟩

theorem paren (h : Replaces t e x) (s : Span) : Replaces t (.paren e s) (.paren x s) :=
  ⟨h.toStands.paren s, h.value⟩

theorem mkUnary (h : Replaces t e x) (op : UnaryOp) (s : Span) :
    Replaces t (mkUnary op e s) (mkUnary op x s) := by
  refine ⟨(h.toStands.mkUnary op s).trans (Stands.mkUnary (.refl x) op s).symm, ?_⟩
  intro v hv
  unfold Expr.mkUnary at hv ⊢
  cases hx : x.value? with
  | none =>
    rw [hx] at hv
    cases hv
  | some a =>
    rw [hx] at hv
    rw [h.value a hx]
    exact hv

/-- Fewer constants make fewer divisions of constants by zero. -/
theorem mkBinary? {op : BinaryOp} (hl : Replaces t l lx) (hr : Replaces t r rx)
    (h : Expr.mkBinary? op l r = some e) : ∃ x, Expr.mkBinary? op lx rx = some x ∧ Replaces t e x := by
  by_cases hBoth : ∃ a b, lx.value? = some a ∧ rx.value? = some b
  · obtain ⟨a, b, ha, hb⟩ := hBoth
    refine ⟨e, ?_, refl e⟩
    rw [← h]
    unfold Expr.mkBinary?
    simp only [ha, hb, hl.value a ha, hr.value b hb, hl.span, hr.span]
  · have hPlain : Expr.mkBinary? op lx rx = some (.binary op lx rx (lx.span.hull rx.span)) := by
      unfold Expr.mkBinary?
      split
      · next a b ha hb => exact absurd ⟨a, b, ha, hb⟩ hBoth
      · rfl
    exact ⟨_, hPlain, hl.toStands.mkBinary? hr.toStands h, nofun⟩

end Replaces

-- --------
-- Two parses of the same tokens
-- --------

/-- Two parses end in the same way: without problems both recognise nothing, or both read the same tokens
and the second expression is the first without its known symbols. Nothing is said if the first parse met a
problem. -/
def Follows (t : SymbolTable) (o o' : Outcome Expr) : Prop :=
  o.problems ≠ [] ∨ (o = .nothing ∧ o' = .nothing) ∨
    ∃ e x c, o = .done e c ∧ o' = .done x c ∧ Replaces t e x

namespace Follows

variable {t : SymbolTable} {e x : Expr} {p p' : Parser Expr} {f f' : Expr → Parser Expr} {c : Cursor}

theorem nothing : Follows t .nothing .nothing := .inr (.inl ⟨rfl, rfl⟩)

theorem done (h : Replaces t e x) (c : Cursor) : Follows t (.done e c) (.done x c) :=
  .inr (.inr ⟨e, x, c, rfl, rfl, h⟩)

theorem after {o o' : Outcome Expr} {problems : List Diagnostic} (h : problems ≠ []) :
    Follows t (o.after problems) o' :=
  .inl fun hNil => h (List.append_eq_nil_iff.mp hNil).1

theorem bind (hp : Follows t (p c) (p' c))
    (hf : ∀ e x c', Replaces t e x → Follows t (f e c') (f' x c')) :
    Follows t ((p >>= f) c) ((p' >>= f') c) := by
  rcases hp with hProblems | ⟨hNothing, hNothing'⟩ | ⟨e, x, c', hDone, hDone', h⟩
  · show Follows t (Parser.bind p f c) _
    unfold Parser.bind
    cases hRun : p c with
    | mk result problems =>
      rw [hRun] at hProblems
      cases result with
      | none => exact .inl hProblems
      | some found => exact after hProblems
  · rw [Parser.bind_of_nothing hNothing, Parser.bind_of_nothing hNothing']
    exact nothing
  · rw [Parser.bind_of_done hDone, Parser.bind_of_done hDone']
    exact hf e x c' h

end Follows

section Lockstep

variable {scope : Scope} {fuel : Nat}

/-- The operators behind an operand. -/
theorem follows_parseRest
    (ihFrom : ∀ least c, Follows scope.symbols (parseFrom scope fuel least c)
      (parseFrom scope.withoutSymbols fuel least c))
    (ihRest : ∀ least e x c, Replaces scope.symbols e x → Follows scope.symbols
      (parseRest scope fuel least e c) (parseRest scope.withoutSymbols fuel least x c))
    {lhs lx : Expr} (h : Replaces scope.symbols lhs lx) (least : Nat) (c : Cursor) :
    Follows scope.symbols (parseRest scope (fuel + 1) least lhs c)
      (parseRest scope.withoutSymbols (fuel + 1) least lx c) := by
  cases hOp : BinaryOp.ofLexeme? c.peek.lexeme with
  | none =>
    rw [parseRest_of_not_operator hOp, parseRest_of_not_operator hOp]
    exact .done h c
  | some op =>
    by_cases hLoose : op.precedence < least
    · rw [parseRest_of_looser hOp hLoose, parseRest_of_looser hOp hLoose]
      exact .done h c
    · have hTight : least ≤ op.precedence := Nat.not_lt.mp hLoose
      rcases ihFrom (op.precedence + 1) c.next with
        hProblems | ⟨hNothing, hNothing'⟩ | ⟨rhs, rx, c', hDone, hDone', hRight⟩
      · -- Whatever becomes of the operator, the problem stays.
        unfold parseRest
        simp only [hOp, if_neg hLoose]
        cases hRhs : parseFrom scope fuel (op.precedence + 1) c.next with
        | mk result problems =>
          rw [hRhs] at hProblems
          cases result with
          | none => exact .inl hProblems
          | some found =>
            cases hFold : mkBinary? op lhs found.1 with
            | none => exact .inl (by simp [hFold])
            | some e =>
              simp only [hFold]
              exact .after hProblems
      · rw [parseRest_of_nothing hOp hTight hNothing, parseRest_of_nothing hOp hTight hNothing']
        exact .done h c
      · cases hFold : mkBinary? op lhs rhs with
        | none =>
          refine .inl ?_
          simp [parseRest, hOp, if_neg hLoose, hDone, Outcome.done, hFold]
        | some e =>
          obtain ⟨x, hFold', hSame⟩ := h.mkBinary? hRight hFold
          rw [parseRest_of_done hOp hTight hDone hFold, parseRest_of_done hOp hTight hDone' hFold']
          exact ihRest least e x c' hSame

/-- One operand: only a name is read differently. -/
theorem follows_parseOperand
    (ihFrom : ∀ least c, Follows scope.symbols (parseFrom scope fuel least c)
      (parseFrom scope.withoutSymbols fuel least c))
    (ihOperand : ∀ c, Follows scope.symbols (parseOperand scope fuel c)
      (parseOperand scope.withoutSymbols fuel c)) (c : Cursor) :
    Follows scope.symbols (parseOperand scope (fuel + 1) c)
      (parseOperand scope.withoutSymbols (fuel + 1) c) := by
  obtain ⟨tokens, stop⟩ := c
  cases tokens with
  | nil => exact .nothing
  | cons t rest =>
    obtain ⟨lexeme, s⟩ := t
    cases hUnary : UnaryOp.ofLexeme? lexeme with
    | some op =>
      rw [parseOperand_sign hUnary, parseOperand_sign hUnary]
      refine (ihOperand ⟨rest, stop⟩).bind fun e x c' h => ?_
      rw [h.span]
      exact .done (h.mkUnary op _) c'
    | none =>
      cases lexeme with
      | number v => exact .done (.refl _) _
      | identifier name =>
        cases hReserved : scope.reserved name with
        | true =>
          have hReserved' : scope.withoutSymbols.reserved name = true := hReserved
          rw [parseOperand_reserved hReserved, parseOperand_reserved hReserved']
          exact .nothing
        | false =>
          have hReserved' : scope.withoutSymbols.reserved name = false := hReserved
          rw [parseOperand_name hReserved, parseOperand_name hReserved']
          exact .done (.ofName scope name s) _
      | mark m =>
        cases m with
        | plus =>
          rw [parseOperand_plus, parseOperand_plus]
          exact ihOperand ⟨rest, stop⟩
        | star | dollar => exact .done (.refl _) _
        | openParen =>
          rw [parseOperand_paren, parseOperand_paren]
          refine (ihFrom 0 ⟨rest, stop⟩).bind fun e x c' h => ?_
          cases hClose : c'.eat? (.mark .closeParen) with
          | none =>
            rw [closeParen_of_eat?_none hClose, closeParen_of_eat?_none hClose]
            exact .nothing
          | some closing =>
            rw [closeParen_of_eat? hClose, closeParen_of_eat? hClose]
            exact .done (h.paren _) _
        | minus | tilde | less | greater => cases hUnary
        | _ => exact .nothing
      | text content => exact .nothing
      | newline => exact .nothing
      | endOfInput => exact .nothing

/-- The three functions of the parser call one another with less fuel, so they are taken together. -/
theorem follows_of_fuel (scope : Scope) (fuel : Nat) :
    (∀ least c, Follows scope.symbols (parseFrom scope fuel least c)
        (parseFrom scope.withoutSymbols fuel least c)) ∧
      (∀ least e x c, Replaces scope.symbols e x → Follows scope.symbols
        (parseRest scope fuel least e c) (parseRest scope.withoutSymbols fuel least x c)) ∧
      ∀ c, Follows scope.symbols (parseOperand scope fuel c)
        (parseOperand scope.withoutSymbols fuel c) := by
  induction fuel with
  | zero => exact ⟨fun _ _ => .nothing, fun _ _ _ c h => .done h c, fun _ => .nothing⟩
  | succ fuel ih =>
    obtain ⟨ihFrom, ihRest, ihOperand⟩ := ih
    refine ⟨?_, ?_, follows_parseOperand ihFrom ihOperand⟩
    · intro least c
      rw [parseFrom_succ, parseFrom_succ]
      exact (ihOperand c).bind (ihRest least)
    · intro least e x c h
      exact follows_parseRest ihFrom ihRest h least c

end Lockstep

-- --------
-- Early and late
-- --------

/-- **Knowing symbols early does not change what is linked.** An expression parsed without problems while some
symbols are known reads the same tokens as without them, and evaluates alike after any further definitions.
A value that is known for a symbol is the value it has then. -/
theorem known_symbols_evaluate_as_linked {scope : Scope} {least : Nat} {c c' : Cursor} {e : Expr}
    (h : parse scope least c = .done e c') :
    (∃ x, parse { scope with symbols := {} } least c = .done x c' ∧
      ∀ more base, (scope.symbols.defineAll more).evaluate base e =
        (scope.symbols.defineAll more).evaluate base x) ∧
      ∀ more base name usage v, scope.symbols.lookup name = .constant v →
        (scope.symbols.defineAll more).evaluate base (.symbol name usage) = .ok v := by
  have hAgrees : ∀ more base, scope.symbols.Agrees
      ((scope.symbols.defineAll more).valueOf base (scope.symbols.defineAll more).symbols) :=
    fun more base => SymbolTable.agrees_valueOf (scope.symbols.prefix_defineAll more) base
  refine ⟨?_, fun more base name usage v hKnown => hAgrees more base name usage v hKnown⟩
  rcases (follows_of_fuel scope (2 * c.rest.length + 2)).1 least c with
    hProblems | ⟨hNothing, -⟩ | ⟨e', x, mid, hDone, hDone', hSame⟩
  · exact absurd (congrArg Outcome.problems h) hProblems
  · exact absurd (hNothing.symm.trans h) Parser.nothing_ne_done
  · obtain ⟨rfl, rfl⟩ := Parser.done_eq_done.mp (hDone.symm.trans h)
    exact ⟨x, hDone', fun more base => hSame.evaluate base _ (hAgrees more base)⟩

/-- `a * b + c`, where `a` is known, `b` waits for the base and `c` is defined later; a second definition of
`a` is refused. -/
theorem known_symbols_evaluate_as_linked_product :
    let t : SymbolTable := { symbols := [⟨"a", .const 3 ⟨4, 1⟩, ⟨0, 1⟩⟩, ⟨"b", .counter 4 ⟨6, 1⟩, ⟨6, 1⟩⟩] }
    let scope : Scope := ⟨t, .counter 16 ⟨10, 0⟩, fun _ => false⟩
    let c : Cursor :=
      ⟨[⟨.identifier "a", ⟨10, 1⟩⟩, ⟨.mark .star, ⟨12, 1⟩⟩, ⟨.identifier "b", ⟨14, 1⟩⟩,
        ⟨.mark .plus, ⟨16, 1⟩⟩, ⟨.identifier "c", ⟨18, 1⟩⟩], 19⟩
    let e : Expr :=
      .binary .add (.binary .multiply (.const 3 ⟨10, 1⟩) (.symbol "b" ⟨14, 1⟩) ⟨10, 5⟩) (.symbol "c" ⟨18, 1⟩)
        ⟨10, 9⟩
    let t' := t.defineAll [⟨"c", .symbol "a" ⟨24, 1⟩, ⟨20, 1⟩⟩, ⟨"a", .const 9 ⟨30, 1⟩, ⟨26, 1⟩⟩]
    parse scope 0 c = .done e ⟨[], 19⟩ ∧ t'.evaluate 0x1000 e = .ok 0x300f ∧
      (∃ x, parse { scope with symbols := {} } 0 c = .done x ⟨[], 19⟩ ∧
        t'.evaluate 0x1000 x = .ok 0x300f) ∧
      t'.evaluate 0x1000 (.symbol "a" ⟨40, 1⟩) = .ok 3 := by
  intro t scope c e t'
  have hParse : parse scope 0 c = .done e ⟨[], 19⟩ := rfl
  have hValue : t'.evaluate 0x1000 e = .ok 0x300f := by cbv
  obtain ⟨⟨x, hPlain, hSame⟩, hKnown⟩ := known_symbols_evaluate_as_linked hParse
  refine ⟨hParse, hValue, ⟨x, hPlain, ?_⟩, ?_⟩
  · rw [← hSame]
    exact hValue
  · exact hKnown _ 0x1000 "a" ⟨40, 1⟩ 3 (by decide)

end Expr

end CrossAsm
