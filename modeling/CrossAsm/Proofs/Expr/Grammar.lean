import CrossAsm.Proofs.Expr.Substitution

/-!
# CrossAsm — the operator grammar

An expression as it is written: `Phrase` has a constructor for every way of writing, parentheses included,
and `fits` says where parentheses may be left out. The parser reads the tokens of a phrase back as a tree that
evaluates like the phrase.

* `Phrase.tokens`, `Phrase.tree` — the tokens of a phrase, and the tree that it means.
* `Phrase.folded` — the expression that is left of the tree if symbols are replaced and constants folded while
  parsing; there is one unless constants are divided by zero (`exists_folded`).
* `parsed_of_folded` — precedence climbing reads a phrase back. The operators behind a phrase are read as if
  its expression had been the first operand.
* `phrase_parses_as_written` — so the parser implements the grammar.
-/

namespace CrossAsm

/-- The mark that stands for the operator in front of an operand. -/
def UnaryOp.mark : UnaryOp → Mark
  | .negate => .minus
  | .complement => .tilde
  | .lowByte => .less
  | .highByte => .greater

theorem UnaryOp.ofLexeme?_mark (op : UnaryOp) : UnaryOp.ofLexeme? (.mark op.mark) = some op := by
  cases op <;> rfl

/-- The mark that stands for the operator between operands. -/
def BinaryOp.mark : BinaryOp → Mark
  | .add => .plus
  | .subtract => .minus
  | .multiply => .star
  | .divide => .slash
  | .remainder => .percent
  | .shiftLeft => .doubleLess
  | .shiftRight => .doubleGreater
  | .and => .ampersand
  | .or => .pipe
  | .xor => .caret

theorem BinaryOp.ofLexeme?_mark (op : BinaryOp) : BinaryOp.ofLexeme? (.mark op.mark) = some op := by
  cases op <;> rfl

/-- The operator that stands at the cursor, if it is read as one between operands. -/
def Cursor.operator? (c : Cursor) : Option BinaryOp := BinaryOp.ofLexeme? c.peek.lexeme

/-- An expression as it is written, with the places of its tokens. -/
inductive Phrase where
  | number (value : Value) (span : Span)
  | symbol (name : String) (span : Span)
  /-- The program counter as `*`. -/
  | star (span : Span)
  /-- The program counter as `$`. -/
  | dollar (span : Span)
  | unary (op : UnaryOp) (span : Span) (operand : Phrase)
  | binary (op : BinaryOp) (span : Span) (lhs rhs : Phrase)
  | paren (opening closing : Span) (inner : Phrase)
deriving DecidableEq, Repr

namespace Phrase

-- --------
-- Writing
-- --------

/-- The tokens of a phrase. -/
def tokens : Phrase → List Token
  | .number v s => [⟨.number v, s⟩]
  | .symbol name s => [⟨.identifier name, s⟩]
  | .star s => [⟨.mark .star, s⟩]
  | .dollar s => [⟨.mark .dollar, s⟩]
  | .unary op s x => ⟨.mark op.mark, s⟩ :: x.tokens
  | .binary op s l r => l.tokens ++ ⟨.mark op.mark, s⟩ :: r.tokens
  | .paren opening closing x => ⟨.mark .openParen, opening⟩ :: (x.tokens ++ [⟨.mark .closeParen, closing⟩])

/-- A precedence above that of every operator between operands. -/
def operandLevel : Nat := 7

/-- Whether the operators outside parentheses have at least the given precedence, and parentheses stand
wherever precedence or left associativity asks for them. -/
def fits : Nat → Phrase → Bool
  | _, .number .. | _, .symbol .. | _, .star .. | _, .dollar .. => true
  | _, .unary _ _ x => x.fits operandLevel
  | k, .binary op _ l r => k ≤ op.precedence && l.fits op.precedence && r.fits (op.precedence + 1)
  | _, .paren _ _ x => x.fits 0

/-- The names that a phrase mentions. -/
def names : Phrase → List String
  | .number .. | .star .. | .dollar .. => []
  | .symbol name _ => [name]
  | .unary _ _ x | .paren _ _ x => x.names
  | .binary _ _ l r => l.names ++ r.names

/-- The tree that a phrase means where `*` and `$` stand for `counter`. -/
def tree (counter : Expr) : Phrase → Expr
  | .number v s => .const v s
  | .symbol name s => .symbol name s
  | .star s | .dollar s => counter.withSpan s
  | .unary op s x => .unary op (x.tree counter) (s.through (x.tree counter).span)
  | .binary op _ l r =>
    .binary op (l.tree counter) (r.tree counter) ((l.tree counter).span.hull (r.tree counter).span)
  | .paren opening closing x => .paren (x.tree counter) (opening.through closing)

/-- The value of a phrase, if it is known in the scope. -/
def constant? (scope : Scope) : Phrase → Option Value
  | .number v _ => some v
  | .symbol name _ =>
    match scope.symbols.lookup name with
    | .constant v => some v
    | .deferred | .undefined => none
  | .star _ | .dollar _ => scope.counter.value?
  | .unary op _ x => (x.constant? scope).map op.apply
  | .binary op _ l r => (l.constant? scope).bind fun a => (r.constant? scope).bind fun b => op.apply a b
  | .paren _ _ x => x.constant? scope

/-- Whether two constants are divided somewhere, of which the second is zero. -/
def dividesByZero (scope : Scope) : Phrase → Bool
  | .number .. | .symbol .. | .star .. | .dollar .. => false
  | .unary _ _ x | .paren _ _ x => x.dividesByZero scope
  | .binary op _ l r =>
    l.dividesByZero scope || r.dividesByZero scope ||
      (op.isFallible && (l.constant? scope).isSome && r.constant? scope == some 0)

-- --------
-- What is left of the tree
-- --------

/-- The expression of a phrase with known symbols replaced and constants folded. -/
def folded (scope : Scope) : Phrase → Option Expr
  | .number v s => some (.const v s)
  | .symbol name s => some (.ofName scope name s)
  | .star s | .dollar s => some (scope.counter.withSpan s)
  | .unary op s x => (x.folded scope).map fun e => .mkUnary op e (s.through e.span)
  | .binary op _ l r => (l.folded scope).bind fun a => (r.folded scope).bind fun b => Expr.mkBinary? op a b
  | .paren opening closing x => (x.folded scope).map fun e => .mkParen e (opening.through closing)

variable {scope : Scope} {x : Phrase} {e : Expr}

/-- Known values are folded, and only they. -/
theorem value?_folded (h : x.folded scope = some e) : e.value? = x.constant? scope := by
  induction x generalizing e with
  | number v s =>
    cases h
    rfl
  | symbol name s =>
    cases h
    unfold Expr.ofName constant?
    cases scope.symbols.lookup name <;> rfl
  | star s | dollar s =>
    cases h
    exact Expr.value?_withSpan _ _
  | unary op s x ih =>
    obtain ⟨a, ha, rfl⟩ := Option.map_eq_some_iff.mp h
    rw [constant?, ← ih ha]
    unfold Expr.mkUnary
    cases a.value? <;> rfl
  | binary op s l r ihl ihr =>
    obtain ⟨a, ha, h⟩ := Option.bind_eq_some_iff.mp h
    obtain ⟨b, hb, h⟩ := Option.bind_eq_some_iff.mp h
    rw [constant?, ← ihl ha, ← ihr hb]
    unfold Expr.mkBinary? at h
    split at h
    · next u w hu hw =>
      obtain ⟨v, hv, rfl⟩ := Option.map_eq_some_iff.mp h
      simp [hu, hw, hv, Expr.value?]
    · next hNone =>
      cases h
      cases hu : a.value? with
      | none => rfl
      | some u =>
        cases hw : b.value? with
        | none => rfl
        | some w => exact absurd hw (hNone u w hu)
  | paren opening closing x ih =>
    obtain ⟨a, ha, rfl⟩ := Option.map_eq_some_iff.mp h
    show a.value? = x.constant? scope
    exact ih ha

/-- What is left of a tree stands for it. -/
theorem stands_folded (h : x.folded scope = some e) :
    Expr.Stands scope.symbols e (x.tree scope.counter) := by
  induction x generalizing e with
  | number v s =>
    cases h
    exact .refl _
  | symbol name s =>
    cases h
    exact .ofName scope name s
  | star s | dollar s =>
    cases h
    exact .refl _
  | unary op s x ih =>
    obtain ⟨a, ha, rfl⟩ := Option.map_eq_some_iff.mp h
    rw [tree, ← (ih ha).span]
    exact (ih ha).mkUnary op _
  | binary op s l r ihl ihr =>
    obtain ⟨a, ha, h⟩ := Option.bind_eq_some_iff.mp h
    obtain ⟨b, hb, h⟩ := Option.bind_eq_some_iff.mp h
    exact (ihl ha).mkBinary? (ihr hb) h
  | paren opening closing x ih =>
    obtain ⟨a, ha, rfl⟩ := Option.map_eq_some_iff.mp h
    exact (ih ha).paren _

/-- Only a division of constants by zero has no expression. -/
theorem exists_folded (h : x.dividesByZero scope = false) : ∃ e, x.folded scope = some e := by
  induction x with
  | number v s => exact ⟨_, rfl⟩
  | symbol name s => exact ⟨_, rfl⟩
  | star s | dollar s => exact ⟨_, rfl⟩
  | unary op s x ih =>
    obtain ⟨a, ha⟩ := ih h
    exact ⟨_, Option.map_eq_some_iff.mpr ⟨a, ha, rfl⟩⟩
  | binary op s l r ihl ihr =>
    simp only [dividesByZero, Bool.or_eq_false_iff] at h
    obtain ⟨⟨hl, hr⟩, hHere⟩ := h
    obtain ⟨a, ha⟩ := ihl hl
    obtain ⟨b, hb⟩ := ihr hr
    have hFold : Expr.mkBinary? op a b ≠ none := by
      intro hNone
      obtain ⟨u, w, hu, hw, hOp, rfl⟩ := (Expr.mkBinary?_eq_none_iff op a b).mp hNone
      rw [← value?_folded ha, ← value?_folded hb, hu, hw] at hHere
      rcases hOp with rfl | rfl <;> simp [BinaryOp.isFallible] at hHere
    obtain ⟨e, he⟩ := Option.ne_none_iff_exists'.mp hFold
    refine ⟨e, ?_⟩
    simp only [folded, ha, hb, Option.bind_some, he]
  | paren opening closing x ih =>
    obtain ⟨a, ha⟩ := ih h
    exact ⟨_, Option.map_eq_some_iff.mpr ⟨a, ha, rfl⟩⟩

/-- What has a known value is not divided by zero. -/
theorem dividesByZero_of_constant? {v : Value} (h : x.constant? scope = some v) :
    x.dividesByZero scope = false := by
  induction x generalizing v with
  | number | symbol | star | dollar => rfl
  | unary op s x ih =>
    obtain ⟨u, hu, -⟩ := Option.map_eq_some_iff.mp h
    exact ih hu
  | binary op s l r ihl ihr =>
    obtain ⟨u, hu, h⟩ := Option.bind_eq_some_iff.mp h
    obtain ⟨w, hw, h⟩ := Option.bind_eq_some_iff.mp h
    have hHere : (op.isFallible && (l.constant? scope).isSome && r.constant? scope == some 0) = false := by
      rw [hu, hw]
      by_cases hZero : w = 0
      · cases hFallible : op.isFallible with
        | false => rfl
        | true =>
          rw [BinaryOp.apply_eq_none_iff.mpr ⟨hFallible, hZero⟩] at h
          cases h
      · simp [hZero]
    simp only [dividesByZero, ihl hu, ihr hw, hHere, Bool.or_false]
  | paren opening closing x ih => exact ih h

-- --------
-- Reading back
-- --------

/-- Whether the phrase is an operand by itself, with the operators in front of it. -/
def isOperand : Phrase → Bool
  | .binary .. => false
  | _ => true

theorem isOperand_of_fits (h : x.fits operandLevel = true) : x.isOperand = true := by
  cases x with
  | binary op s l r => cases op <;> simp [fits, operandLevel, BinaryOp.precedence] at h
  | _ => rfl

theorem tokens_length_pos (x : Phrase) : 0 < x.tokens.length := by
  cases x with
  | binary op s l r =>
    simp only [tokens, List.length_append, List.length_cons]
    omega
  | _ => simp [tokens]

/-- How the tokens of a phrase are read in front of any others. -/
structure Parsed (scope : Scope) (stop : Nat) (x : Phrase) (k : Nat) (e : Expr) : Prop where
  operand : x.isOperand = true → ∀ fuel rest, 2 * x.tokens.length ≤ fuel + 1 →
    Expr.parseOperand scope fuel ⟨x.tokens ++ rest, stop⟩ = .done e ⟨rest, stop⟩
  /-- Each operator takes a unit of fuel of those behind it. -/
  first : ∀ least fuel rest, least ≤ k → 2 * x.tokens.length ≤ fuel →
    (∀ op, Cursor.operator? ⟨rest, stop⟩ = some op → op.precedence ≤ k) →
    ∃ fuel', fuel ≤ fuel' + x.tokens.length ∧
      Expr.parseFrom scope fuel least ⟨x.tokens ++ rest, stop⟩ =
        Expr.parseRest scope fuel' least e ⟨rest, stop⟩

/-- What is read as an operand is also read as an expression, as far as the operators behind it. -/
theorem Parsed.of_operand {stop k : Nat}
    (h : ∀ fuel rest, 2 * x.tokens.length ≤ fuel + 2 →
      Expr.parseOperand scope (fuel + 1) ⟨x.tokens ++ rest, stop⟩ = .done e ⟨rest, stop⟩) :
    Parsed scope stop x k e := by
  have hPos := x.tokens_length_pos
  have hOperand : ∀ fuel rest, 2 * x.tokens.length ≤ fuel + 1 →
      Expr.parseOperand scope fuel ⟨x.tokens ++ rest, stop⟩ = .done e ⟨rest, stop⟩ := by
    intro fuel rest hFuel
    obtain ⟨fuel, rfl⟩ : ∃ f, fuel = f + 1 := ⟨fuel - 1, by omega⟩
    exact h fuel rest hFuel
  refine ⟨fun _ => hOperand, ?_⟩
  intro least fuel rest _ hFuel _
  obtain ⟨fuel, rfl⟩ : ∃ f, fuel = f + 1 := ⟨fuel - 1, by omega⟩
  refine ⟨fuel, by omega, ?_⟩
  rw [Expr.parseFrom_succ, Parser.bind_of_done (hOperand fuel rest hFuel)]

theorem parseRest_of_ends {fuel least : Nat} {c : Cursor}
    (h : ∀ op, c.operator? = some op → op.precedence < least) :
    Expr.parseRest scope fuel least e c = .done e c := by
  cases hOp : c.operator? with
  | none => exact Expr.parseRest_of_not_operator hOp
  | some op => exact Expr.parseRest_of_looser hOp (h op hOp)

/-- **Precedence climbing reads a phrase back.** -/
theorem parsed_of_folded (stop : Nat) {k : Nat} (hFold : x.folded scope = some e)
    (hFits : x.fits k = true) (hNames : ∀ name ∈ x.names, scope.reserved name = false) :
    Parsed scope stop x k e := by
  induction x generalizing e k with
  | number v s =>
    cases hFold
    exact .of_operand fun _ _ _ => Expr.parseOperand_number v
  | symbol name s =>
    cases hFold
    exact .of_operand fun _ _ _ => Expr.parseOperand_name (hNames name (by simp [names]))
  | star s =>
    cases hFold
    exact .of_operand fun _ _ _ => Expr.parseOperand_counter (.inl rfl)
  | dollar s =>
    cases hFold
    exact .of_operand fun _ _ _ => Expr.parseOperand_counter (.inr rfl)
  | unary op s y ih =>
    obtain ⟨a, ha, rfl⟩ := Option.map_eq_some_iff.mp hFold
    have hParsed := ih ha hFits hNames
    refine .of_operand fun fuel rest hFuel => ?_
    simp only [tokens, List.length_cons] at hFuel
    have hOperand := hParsed.operand (isOperand_of_fits hFits) fuel rest (by omega)
    simp only [tokens, List.cons_append]
    rw [Expr.parseOperand_sign op.ofLexeme?_mark, Parser.bind_of_done hOperand]
    rfl
  | binary op s l r ihl ihr =>
    obtain ⟨a, ha, hFold⟩ := Option.bind_eq_some_iff.mp hFold
    obtain ⟨b, hb, hFold⟩ := Option.bind_eq_some_iff.mp hFold
    simp only [fits, Bool.and_eq_true, decide_eq_true_eq] at hFits
    obtain ⟨⟨hLevel, hl⟩, hr⟩ := hFits
    have hLeft := ihl ha hl fun name h => hNames name (by simp [names, h])
    have hRight := ihr hb hr fun name h => hNames name (by simp [names, h])
    refine ⟨nofun, ?_⟩
    intro least fuel rest hLeast hFuel hNext
    simp only [tokens, List.length_append, List.length_cons] at hFuel ⊢
    rw [List.append_assoc, List.cons_append]
    -- The left operand stops at the operator, which is read with at least its own precedence.
    have hHere : ∀ op', Cursor.operator? ⟨⟨.mark op.mark, s⟩ :: (r.tokens ++ rest), stop⟩ = some op' →
        op'.precedence ≤ op.precedence := by
      intro op' h
      obtain rfl := Option.some.inj (op.ofLexeme?_mark.symm.trans h)
      exact Nat.le_refl _
    obtain ⟨fuelLeft, hFuelLeft, hReadLeft⟩ :=
      hLeft.first least fuel _ (by omega) (by omega) hHere
    obtain ⟨fuelLeft, rfl⟩ : ∃ f, fuelLeft = f + 1 := ⟨fuelLeft - 1, by omega⟩
    -- The right operand stops behind the phrase, where no operator binds tighter.
    have hBehind : ∀ op', Cursor.operator? ⟨rest, stop⟩ = some op' →
        op'.precedence < op.precedence + 1 := by
      intro op' h
      have := hNext op' h
      omega
    obtain ⟨fuelRight, -, hReadRight⟩ :=
      hRight.first (op.precedence + 1) fuelLeft rest (Nat.le_refl _) (by omega)
        fun op' h => Nat.le_of_lt (hBehind op' h)
    rw [parseRest_of_ends hBehind] at hReadRight
    refine ⟨fuelLeft, by omega, ?_⟩
    rw [hReadLeft]
    exact Expr.parseRest_of_done op.ofLexeme?_mark (by omega) hReadRight hFold
  | paren opening closing y ih =>
    obtain ⟨a, ha, rfl⟩ := Option.map_eq_some_iff.mp hFold
    have hParsed := ih ha hFits hNames
    refine .of_operand fun fuel rest hFuel => ?_
    simp only [tokens, List.length_cons, List.length_append, List.length_nil] at hFuel
    simp only [tokens, List.cons_append, List.append_assoc, List.nil_append]
    obtain ⟨fuelInner, -, hInner⟩ :=
      hParsed.first 0 fuel (⟨.mark .closeParen, closing⟩ :: rest) (Nat.le_refl _) (by omega)
        fun _ h => by cases h
    rw [Expr.parseRest_of_not_operator rfl] at hInner
    rw [Expr.parseOperand_paren, Parser.bind_of_done hInner]
    exact Expr.closeParen_of_eat? (Cursor.eat?_mark_eq_some.mpr ⟨rfl, rfl, rfl⟩)

/-- A phrase is read as what it folds to, up to where no operator stands. -/
theorem parse_of_folded {stop : Nat} {rest : List Token} (hFits : x.fits 0 = true)
    (hNames : ∀ name ∈ x.names, scope.reserved name = false) (hFolded : x.folded scope = some e)
    (hEnd : Cursor.operator? ⟨rest, stop⟩ = none) :
    Expr.parse scope 0 ⟨x.tokens ++ rest, stop⟩ = .done e ⟨rest, stop⟩ := by
  have hNext : ∀ op, Cursor.operator? ⟨rest, stop⟩ = some op → op.precedence ≤ 0 := by
    intro op hOp
    rw [hEnd] at hOp
    cases hOp
  obtain ⟨fuel, -, hRead⟩ :=
    (parsed_of_folded stop hFolded hFits hNames).first 0 (2 * (x.tokens ++ rest).length + 2) rest
      (Nat.le_refl _) (by simp; omega) hNext
  rw [Expr.parseRest_of_not_operator hEnd] at hRead
  exact hRead

/-- A phrase with a known value is read as that value. -/
theorem parse_of_constant? {stop : Nat} {rest : List Token} {v : Value} (hFits : x.fits 0 = true)
    (hNames : ∀ name ∈ x.names, scope.reserved name = false) (hKnown : x.constant? scope = some v)
    (hEnd : Cursor.operator? ⟨rest, stop⟩ = none) :
    ∃ e, Expr.parse scope 0 ⟨x.tokens ++ rest, stop⟩ = .done e ⟨rest, stop⟩ ∧ e.value? = some v := by
  obtain ⟨e, he⟩ := exists_folded (dividesByZero_of_constant? hKnown)
  exact ⟨e, parse_of_folded hFits hNames he hEnd, (value?_folded he).trans hKnown⟩

-- --------
-- The grammar
-- --------

/-- **The parser implements the operator grammar.** A phrase with parentheses where precedence or left
associativity asks for them is read to its end, without problems, and what is read evaluates like the tree of
the phrase, whatever is defined later. Names must not be reserved, constants must not be divided by zero, and
no operator may follow that would still belong to the expression. -/
theorem phrase_parses_as_written {scope : Scope} {least stop : Nat} {x : Phrase} {rest : List Token}
    (hFits : x.fits least = true) (hNames : ∀ name ∈ x.names, scope.reserved name = false)
    (hDivides : x.dividesByZero scope = false)
    (hNext : ∀ op, Cursor.operator? ⟨rest, stop⟩ = some op → op.precedence < least) :
    ∃ e, Expr.parse scope least ⟨x.tokens ++ rest, stop⟩ = .done e ⟨rest, stop⟩ ∧
      ∀ more base, (scope.symbols.defineAll more).evaluate base e =
        (scope.symbols.defineAll more).evaluate base (x.tree scope.counter) := by
  obtain ⟨e, he⟩ := exists_folded hDivides
  refine ⟨e, ?_, ?_⟩
  · obtain ⟨fuel, -, hRead⟩ :=
      (parsed_of_folded stop he hFits hNames).first least (2 * (x.tokens ++ rest).length + 2) rest
        (Nat.le_refl _) (by simp; omega) fun op h => Nat.le_of_lt (hNext op h)
    rw [parseRest_of_ends hNext] at hRead
    exact hRead
  · intro more base
    exact (stands_folded he).evaluate base _
      (SymbolTable.agrees_valueOf (scope.symbols.prefix_defineAll more) base)

/-- `-(a + 2) * * << 1` in front of `| 1`, where the second star is the program counter. -/
theorem phrase_parses_as_written_shift :
    let scope : Scope :=
      ⟨{ symbols := [⟨"a", .const 3 ⟨2, 1⟩, ⟨0, 1⟩⟩] }, .counter 16 ⟨4, 0⟩, fun name => name == "x"⟩
    let sum : Phrase := .binary .add ⟨8, 1⟩ (.symbol "a" ⟨6, 1⟩) (.number 2 ⟨10, 1⟩)
    let product : Phrase :=
      .binary .multiply ⟨13, 1⟩ (.unary .negate ⟨4, 1⟩ (.paren ⟨5, 1⟩ ⟨11, 1⟩ sum)) (.star ⟨15, 1⟩)
    let x : Phrase := .binary .shiftLeft ⟨17, 2⟩ product (.number 1 ⟨20, 1⟩)
    let rest : List Token := [⟨.mark .pipe, ⟨22, 1⟩⟩, ⟨.number 1, ⟨24, 1⟩⟩]
    x.fits 4 = true ∧ x.dividesByZero scope = false ∧
      ∃ e, Expr.parse scope 4 ⟨x.tokens ++ rest, 25⟩ = .done e ⟨rest, 25⟩ ∧
        scope.symbols.evaluate 0x1000 e = .ok (-(3 + 2) * (0x1000 + 16) * 2) := by
  intro scope sum product x rest
  have hFits : x.fits 4 = true := by decide
  have hNames : ∀ name ∈ x.names, scope.reserved name = false := by decide
  have hDivides : x.dividesByZero scope = false := by decide
  have hNext : ∀ op, Cursor.operator? ⟨rest, 25⟩ = some op → op.precedence < 4 := by
    intro op h
    cases h
    decide
  have hValue : scope.symbols.evaluate 0x1000 (x.tree scope.counter) =
      .ok (-(3 + 2) * (0x1000 + 16) * 2) := by cbv
  obtain ⟨e, hParse, hSame⟩ := phrase_parses_as_written hFits hNames hDivides hNext
  exact ⟨hFits, hDivides, e, hParse, (hSame [] 0x1000).trans hValue⟩

end Phrase

end CrossAsm
