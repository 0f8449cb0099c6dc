import CrossAsm.Proofs.Expr.Likeness
import CrossAsm.Proofs.Expr.Parser

/-!
# CrossAsm — reading from cursors that are alike

Corresponding tokens say the same up to their names and stand at corresponding places. A parser that starts at
corresponding cursors takes the same decisions, since it looks at lexemes only and at names only by their lower case.

* `Cursor.Like` — corresponding tokens are still to be read.
* `Parser.Like` — two parsers with corresponding outcomes, with one lemma for each combinator.
* `Expr.parse_like` — an expression is read to corresponding ones.
-/

namespace CrossAsm

variable {L : Likeness}

-- --------
-- Lexemes and tokens
-- --------

namespace Lexeme

/-- Corresponding names, or the same lexeme. -/
inductive Like (L : Likeness) : Lexeme → Lexeme → Prop
  | identifier {name name' : String} (h : L.names name name') : Like L (.identifier name) (.identifier name')
  | same {l : Lexeme} (h : l.name? = none) : Like L l l

namespace Like

variable {l l' : Lexeme}

theorem kind_eq (h : Like L l l') : l.kind = l'.kind := by
  cases h <;> rfl

theorem name? (h : Like L l l') : Option.Rel L.names l.name? l'.name? := by
  cases h with
  | identifier h => exact .some h
  | same h =>
    rw [h]
    exact .none

theorem endsOperand_eq (h : Like L l l') : l.endsOperand = l'.endsOperand := by
  cases h <;> rfl

theorem endsStatement_eq (h : Like L l l') : l.endsStatement = l'.endsStatement := by
  cases h <;> rfl

theorem binaryOp_eq (h : Like L l l') : BinaryOp.ofLexeme? l = BinaryOp.ofLexeme? l' := by
  cases h <;> rfl

/-- Where all names correspond to themselves, all lexemes do. -/
theorem refl (hNames : ∀ name, L.names name name) (l : Lexeme) : Like L l l := by
  cases l with
  | identifier name => exact .identifier (hNames name)
  | _ => exact .same rfl

theorem describe_eq (hText : L.verbatim) (h : Like L l l') : l.describe = l'.describe := by
  cases h with
  | identifier h => rw [L.eq_of_verbatim hText h]
  | same _ => rfl

end Like

end Lexeme

/-- Corresponding lexemes at corresponding places. -/
structure Token.Like (L : Likeness) (t t' : Token) : Prop where
  lexeme : t.lexeme.Like L t'.lexeme
  span   : L.spans t.span t'.span
  start  : L.starts t.span.start t'.span.start

/-- Corresponding words are the same keyword. -/
theorem Text.sameWord_eq {name name' : String} (h : L.names name name') (word : String) :
    sameWord name word = sameWord name' word := by
  unfold sameWord
  rw [L.lower_eq h]

-- --------
-- Cursors
-- --------

namespace Cursor

/-- Corresponding tokens are still to be read. -/
structure Like (L : Likeness) (c c' : Cursor) : Prop where
  rest : List.Forall₂ (Token.Like L) c.rest c'.rest
  stop : Token.Like L c.endToken c'.endToken

/-- Tokens skipped up to the first that ends something. -/
theorem dropWhile {ends : Lexeme → Bool} (hEnds : ∀ {l l'}, Lexeme.Like L l l' → ends l = ends l')
    {ts ts' : List Token} (h : List.Forall₂ (Token.Like L) ts ts') :
    List.Forall₂ (Token.Like L) (ts.dropWhile fun t => !ends t.lexeme) (ts'.dropWhile fun t => !ends t.lexeme) := by
  induction h with
  | nil => exact .nil
  | cons ht hRest ih =>
    rw [List.dropWhile_cons, List.dropWhile_cons, hEnds ht.lexeme]
    split
    · exact ih
    · exact .cons ht hRest

/-- What was read and the cursors behind it correspond. -/
def Found (L : Likeness) {α β : Type} (A : α → β → Prop) (found : α × Cursor) (found' : β × Cursor) : Prop :=
  A found.1 found'.1 ∧ found.2.Like L found'.2

namespace Like

variable {c c' : Cursor}

theorem peek (h : Like L c c') : Token.Like L c.peek c'.peek := by
  obtain ⟨tokens, stop⟩ := c
  obtain ⟨tokens', stop'⟩ := c'
  cases h.rest with
  | nil => exact h.stop
  | cons ht _ => exact ht

theorem next (h : Like L c c') : Like L c.next c'.next := by
  obtain ⟨tokens, stop⟩ := c
  obtain ⟨tokens', stop'⟩ := c'
  cases h.rest with
  | nil => exact ⟨.nil, h.stop⟩
  | cons _ hRest => exact ⟨hRest, h.stop⟩

/-- The token behind the current one. -/
theorem peekAt_one (h : Like L c c') : Token.Like L (c.peekAt 1) (c'.peekAt 1) := by
  have hNext := h.next.peek
  have hSame (d : Cursor) : d.next.peek = d.peekAt 1 := by
    obtain ⟨tokens, stop⟩ := d
    match tokens with
    | [] => rfl
    | [_] => rfl
    | _ :: _ :: _ => rfl
  rwa [hSame, hSame] at hNext

theorem isAt_eq (h : Like L c c') (k : Kind) : c.isAt k = c'.isAt k := by
  unfold isAt
  rw [h.peek.lexeme.kind_eq]

theorem eat? (h : Like L c c') (k : Kind) : Option.Rel (Found L (Token.Like L)) (c.eat? k) (c'.eat? k) := by
  unfold Cursor.eat?
  rw [h.isAt_eq k]
  split
  · exact .some ⟨h.peek, h.next⟩
  · exact .none

theorem eatWord? (h : Like L c c') (word : String) :
    Option.Rel (Found L (Token.Like L)) (c.eatWord? word) (c'.eatWord? word) := by
  unfold Cursor.eatWord?
  rcases rel_cases h.peek.lexeme.name? with ⟨hName, hName'⟩ | ⟨name, name', hName, hName', hLike⟩
  · rw [hName, hName']
    exact .none
  · rw [hName, hName']
    dsimp only
    rw [Text.sameWord_eq hLike word]
    split
    · exact .some ⟨h.peek, h.next⟩
    · exact .none

theorem atOperandEnd_eq (h : Like L c c') : c.atOperandEnd = c'.atOperandEnd := h.peek.lexeme.endsOperand_eq

theorem atStatementEnd_eq (h : Like L c c') : c.atStatementEnd = c'.atStatementEnd :=
  h.peek.lexeme.endsStatement_eq

theorem isExhausted_eq (h : Like L c c') : c.isExhausted = c'.isExhausted := by
  obtain ⟨tokens, stop⟩ := c
  obtain ⟨tokens', stop'⟩ := c'
  cases h.rest <;> rfl

theorem skipStatement (h : Like L c c') : Like L c.skipStatement c'.skipStatement :=
  ⟨Cursor.dropWhile Lexeme.Like.endsStatement_eq h.rest, h.stop⟩

/-- The last token in front of the first that ends something. -/
theorem getLast?_takeWhile {ends : Lexeme → Bool} (hEnds : ∀ {l l'}, Lexeme.Like L l l' → ends l = ends l')
    {ts ts' : List Token} (h : List.Forall₂ (Token.Like L) ts ts') :
    Option.Rel (Token.Like L) (ts.takeWhile fun t => !ends t.lexeme).getLast?
      (ts'.takeWhile fun t => !ends t.lexeme).getLast? := by
  induction h with
  | nil => exact .none
  | @cons t t' ts ts' ht _ ih =>
    rw [List.takeWhile_cons, List.takeWhile_cons, hEnds ht.lexeme]
    split
    · rw [List.getLast?_cons, List.getLast?_cons]
      rcases rel_cases ih with ⟨hLast, hLast'⟩ | ⟨u, u', hLast, hLast', hLike⟩
      · rw [hLast, hLast']
        exact .some ht
      · rw [hLast, hLast']
        exact .some hLike
    · exact .none

theorem spanUntil (h : Like L c c') {ends : Lexeme → Bool}
    (hEnds : ∀ {l l'}, Lexeme.Like L l l' → ends l = ends l') :
    L.spans (c.spanUntil ends) (c'.spanUntil ends) := by
  have hStart := h.peek.span
  unfold Cursor.spanUntil
  rcases rel_cases (getLast?_takeWhile hEnds h.rest) with ⟨hLast, hLast'⟩ | ⟨t, t', hLast, hLast', hLike⟩
  · rw [hLast, hLast']
    exact L.through hStart hStart
  · rw [hLast, hLast']
    exact L.through hStart hLike.span

theorem operandSpan (h : Like L c c') : L.spans c.operandSpan c'.operandSpan :=
  h.spanUntil Lexeme.Like.endsOperand_eq

theorem statementSpan (h : Like L c c') : L.spans c.statementSpan c'.statementSpan :=
  h.spanUntil Lexeme.Like.endsStatement_eq

end Like

end Cursor

-- --------
-- Outcomes
-- --------

/-- The same was recognised or nothing, with the same problems on the way. -/
structure Outcome.Like (L : Likeness) {α β : Type} (A : α → β → Prop) (o : Outcome α) (o' : Outcome β) : Prop where
  result   : Option.Rel (Cursor.Found L A) o.result o'.result
  problems : L.Reports o.problems o'.problems

namespace Outcome.Like

variable {α β : Type} {A : α → β → Prop}

theorem done {a : α} {b : β} {c c' : Cursor} (h : A a b) (hc : c.Like L c') :
    Like L A (Outcome.done a c) (Outcome.done b c') := ⟨.some ⟨h, hc⟩, .nil⟩

theorem none {problems problems' : List Diagnostic} (h : L.Reports problems problems') :
    Like L A ⟨Option.none, problems⟩ ⟨Option.none, problems'⟩ := ⟨.none, h⟩

theorem nothing : Like L A (Outcome.nothing : Outcome α) (Outcome.nothing : Outcome β) := none .nil

theorem after {problems problems' : List Diagnostic} (hProblems : L.Reports problems problems')
    {o : Outcome α} {o' : Outcome β} (h : Like L A o o') : Like L A (o.after problems) (o'.after problems') :=
  ⟨h.result, List.rel_append hProblems h.problems⟩

/-- Two outcomes are alike by what was recognised. -/
theorem cases {o : Outcome α} {o' : Outcome β} (h : Like L A o o') :
    (∃ problems problems', o = ⟨.none, problems⟩ ∧ o' = ⟨.none, problems'⟩ ∧ L.Reports problems problems') ∨
      ∃ a b c c' problems problems', o = ⟨.some (a, c), problems⟩ ∧ o' = ⟨.some (b, c'), problems'⟩ ∧
        A a b ∧ c.Like L c' ∧ L.Reports problems problems' := by
  obtain ⟨result, problems⟩ := o
  obtain ⟨result', problems'⟩ := o'
  obtain ⟨hResult, hProblems⟩ := h
  cases hResult with
  | none => exact .inl ⟨problems, problems', rfl, rfl, hProblems⟩
  | @some found found' hFound =>
    exact .inr ⟨found.1, found'.1, found.2, found'.2, problems, problems', rfl, rfl, hFound.1, hFound.2, hProblems⟩

end Outcome.Like

-- --------
-- Parsers
-- --------

namespace Parser

variable {α α' β β' : Type} {A : α → α' → Prop} {B : β → β' → Prop} {p : Parser α} {p' : Parser α'}
  {q : Parser α} {q' : Parser α'} {f : α → Parser β} {f' : α' → Parser β'}

/-- From corresponding cursors, two parsers come to corresponding outcomes. -/
def Like (L : Likeness) (A : α → α' → Prop) (p : Parser α) (p' : Parser α') : Prop :=
  ∀ c c', c.Like L c' → (p c).Like L A (p' c')

namespace Like

theorem pure {a : α} {a' : α'} (h : A a a') : Like L A (pure a : Parser α) (pure a' : Parser α') :=
  fun _ _ hc => .done h hc

theorem fail : Like L A (fail : Parser α) (fail : Parser α') := fun _ _ _ => .nothing

theorem problem {d d' : Diagnostic} (h : d.Like L d') :
    Like L A (problem d : Parser α) (problem d' : Parser α') := fun _ _ _ => .none (.cons h .nil)

theorem bind (hp : Like L A p p') (hf : ∀ a a', A a a' → Like L B (f a) (f' a')) :
    Like L B (p >>= f) (p' >>= f') := by
  intro c c' hc
  show Outcome.Like L B (Parser.bind p f c) (Parser.bind p' f' c')
  unfold Parser.bind
  rcases (hp c c' hc).cases with
    ⟨problems, problems', hRun, hRun', hProblems⟩ | ⟨a, a', d, d', problems, problems', hRun, hRun', ha, hd, hProblems⟩
  · rw [hRun, hRun']
    exact .none hProblems
  · rw [hRun, hRun']
    exact (hf a a' ha d d' hd).after hProblems

theorem orElse (hp : Like L A p p') (hq : Like L A q q') : Like L A (p <|> q) (p' <|> q') := by
  intro c c' hc
  show Outcome.Like L A (Parser.orElse p (fun _ => q) c) (Parser.orElse p' (fun _ => q') c')
  unfold Parser.orElse
  rcases (hp c c' hc).cases with
    ⟨problems, problems', hRun, hRun', hProblems⟩ | ⟨a, a', d, d', problems, problems', hRun, hRun', ha, hd, hProblems⟩
  · rw [hRun, hRun']
    exact (hq c c' hc).after hProblems
  · rw [hRun, hRun']
    exact ⟨.some ⟨ha, hd⟩, hProblems⟩

theorem when (condition : Bool) (hp : Like L A p p') :
    Like L A (Parser.when condition p) (Parser.when condition p') := by
  cases condition with
  | true => exact hp
  | false => exact fail

theorem atEnd {a : α} {a' : α'} (h : A a a') : Like L A (Parser.atEnd a) (Parser.atEnd a') := by
  intro c c' hc
  unfold Parser.atEnd
  rw [hc.atOperandEnd_eq]
  split
  · exact .done h hc
  · exact .nothing

theorem look {g : Cursor → Parser α} {g' : Cursor → Parser α'} (hg : ∀ c c', c.Like L c' → Like L A (g c) (g' c')) :
    Like L A (Parser.look g) (Parser.look g') := fun c c' hc => hg c c' hc c c' hc

theorem peek : Like L (Token.Like L) Parser.peek Parser.peek := fun _ _ hc => .done hc.peek hc

theorem advance : Like L (Token.Like L) Parser.advance Parser.advance := fun _ _ hc => .done hc.peek hc.next

theorem mark (m : Mark) : Like L (Token.Like L) (Parser.mark m) (Parser.mark m) :=
  fun _ _ hc => ⟨hc.eat? (.mark m), .nil⟩

theorem word (w : String) : Like L (Token.Like L) (Parser.word w) (Parser.word w) :=
  fun _ _ hc => ⟨hc.eatWord? w, .nil⟩

theorem optional (hp : Like L A p p') : Like L (Option.Rel A) (Parser.optional p) (Parser.optional p') := by
  intro c c' hc
  unfold Parser.optional
  rcases (hp c c' hc).cases with
    ⟨problems, problems', hRun, hRun', hProblems⟩ | ⟨a, a', d, d', problems, problems', hRun, hRun', ha, hd, hProblems⟩
  · rw [hRun, hRun']
    exact ⟨.some ⟨.none, hc⟩, hProblems⟩
  · rw [hRun, hRun']
    exact ⟨.some ⟨.some ha, hd⟩, hProblems⟩

end Like

end Parser

-- --------
-- Expressions
-- --------

/-- Scopes in which corresponding names have corresponding meanings. -/
structure Scope.Like (L : Likeness) (scope scope' : Scope) : Prop where
  lookup   : ∀ {name name'}, L.names name name' → scope.symbols.lookup name = scope'.symbols.lookup name'
  counter  : scope.counter.Like L scope'.counter
  reserved : ∀ {name name'}, L.names name name' → scope.reserved name = scope'.reserved name'

namespace Expr

variable {scope scope' : Scope}

theorem ofName_like (h : scope.Like L scope') {name name' : String} (hName : L.names name name') {s s' : Span}
    (hs : L.spans s s') : Like L (ofName scope name s) (ofName scope' name' s') := by
  unfold ofName
  rw [h.lookup hName]
  split
  · exact .const _ hs
  · exact .symbol hName hs
  · exact .symbol hName hs

/-- The three functions of the parser on corresponding cursors. -/
structure LikeUpTo (L : Likeness) (scope scope' : Scope) (fuel : Nat) : Prop where
  full    : ∀ least, Parser.Like L (Like L) (parseFrom scope fuel least) (parseFrom scope' fuel least)
  rest    : ∀ least lhs lhs', Like L lhs lhs' →
    Parser.Like L (Like L) (parseRest scope fuel least lhs) (parseRest scope' fuel least lhs')
  operand : Parser.Like L (Like L) (parseOperand scope fuel) (parseOperand scope' fuel)

theorem closeParen_like {s s' : Span} (hs : L.spans s s') {inner inner' : Expr} (h : Like L inner inner') :
    Parser.Like L (Like L) (closeParen s inner) (closeParen s' inner') :=
  (Parser.Like.mark _).bind fun _ _ hClose => .pure (.paren h (L.through hs hClose.span))

section Steps

variable {fuel : Nat} (ih : LikeUpTo L scope scope' fuel)

include ih

theorem parseRest_like {least : Nat} {lhs lhs' : Expr} (hLhs : Like L lhs lhs') :
    Parser.Like L (Like L) (parseRest scope (fuel + 1) least lhs) (parseRest scope' (fuel + 1) least lhs') := by
  intro c c' hc
  unfold parseRest
  rw [hc.peek.lexeme.binaryOp_eq]
  cases BinaryOp.ofLexeme? c'.peek.lexeme with
  | none => exact .done hLhs hc
  | some op =>
    dsimp only
    split
    · exact .done hLhs hc
    · rcases (ih.full (op.precedence + 1) _ _ hc.next).cases with
        ⟨problems, problems', hRun, hRun', hProblems⟩ |
        ⟨rhs, rhs', d, d', problems, problems', hRun, hRun', hRhs, hd, hProblems⟩
      · rw [hRun, hRun']
        exact ⟨.some ⟨hLhs, hc⟩, hProblems⟩
      · rw [hRun, hRun']
        dsimp only
        rcases rel_cases (hLhs.mkBinary? op hRhs) with ⟨hFold, hFold'⟩ | ⟨e, e', hFold, hFold', he⟩
        · rw [hFold, hFold']
          exact .none (List.rel_append hProblems (.cons (.of_place hc.peek.span rfl rfl rfl fun _ => rfl) .nil))
        · rw [hFold, hFold']
          exact (ih.rest least e e' he d d' hd).after hProblems

/-- An operand by its first lexeme. -/
theorem parseOperand_like (hScope : scope.Like L scope') :
    Parser.Like L (Like L) (parseOperand scope (fuel + 1)) (parseOperand scope' (fuel + 1)) := by
  rintro ⟨tokens, stop⟩ ⟨tokens', stop'⟩ hc
  have hNext := hc.next
  cases hc.rest with
  | nil => exact .nothing
  | @cons t t' rest rest' ht hRest =>
    obtain ⟨lexeme, s⟩ := t
    obtain ⟨lexeme', s'⟩ := t'
    have hs : L.spans s s' := ht.span
    have hSign {op : UnaryOp} (hOp : UnaryOp.ofLexeme? lexeme = some op) (hOp' : UnaryOp.ofLexeme? lexeme' = some op) :
        Outcome.Like L (Like L) (parseOperand scope (fuel + 1) ⟨⟨lexeme, s⟩ :: rest, stop⟩)
          (parseOperand scope' (fuel + 1) ⟨⟨lexeme', s'⟩ :: rest', stop'⟩) := by
      rw [parseOperand_sign hOp, parseOperand_sign hOp']
      exact ih.operand.bind (fun e e' he => .pure (he.mkUnary op (L.through hs he.span))) _ _ hNext
    cases ht.lexeme with
    | @identifier name name' hName =>
      cases hReserved : scope.reserved name with
      | true =>
        rw [parseOperand_reserved hReserved, parseOperand_reserved ((hScope.reserved hName).symm.trans hReserved)]
        exact .nothing
      | false =>
        rw [parseOperand_name hReserved, parseOperand_name ((hScope.reserved hName).symm.trans hReserved)]
        exact .done (ofName_like hScope hName hs) hNext
    | same hNone =>
      cases lexeme with
      | identifier name => cases hNone
      | number v => exact .done (.const v hs) hNext
      | mark m =>
        cases m with
        | plus =>
          rw [parseOperand_plus, parseOperand_plus]
          exact ih.operand _ _ hNext
        | star =>
          rw [parseOperand_counter (.inl rfl), parseOperand_counter (.inl rfl)]
          exact .done (hScope.counter.withSpan hs) hNext
        | dollar =>
          rw [parseOperand_counter (.inr rfl), parseOperand_counter (.inr rfl)]
          exact .done (hScope.counter.withSpan hs) hNext
        | openParen =>
          rw [parseOperand_paren, parseOperand_paren]
          exact (ih.full 0).bind (fun _ _ hInner => closeParen_like hs hInner) _ _ hNext
        | minus | tilde | less | greater => exact hSign rfl rfl
        | _ => exact .nothing
      | text content => exact .nothing
      | newline => exact .nothing
      | endOfInput => exact .nothing

end Steps

/-- The three functions of the parser call one another with less fuel, so they are taken together. -/
theorem likeUpTo (hScope : scope.Like L scope') (fuel : Nat) : LikeUpTo L scope scope' fuel := by
  induction fuel with
  | zero => exact ⟨fun _ => .fail, fun _ _ _ hLhs => .pure hLhs, .fail⟩
  | succ fuel ih =>
    refine ⟨fun least => ?_, fun _ _ _ hLhs => parseRest_like ih hLhs, parseOperand_like ih hScope⟩
    rw [parseFrom_succ, parseFrom_succ]
    exact ih.operand.bind (ih.rest least)

/-- **An expression** is read to corresponding ones from corresponding tokens. -/
theorem parse_like (hScope : scope.Like L scope') (least : Nat) :
    Parser.Like L (Like L) (parse scope least) (parse scope' least) := by
  intro c c' hc
  unfold parse
  rw [hc.rest.length_eq]
  exact (likeUpTo hScope _).full least c c' hc

end Expr

end CrossAsm
