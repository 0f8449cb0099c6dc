import CrossAsm.Mos65
import CrossAsm.Proofs.Expr.Evaluation
import CrossAsm.Proofs.Operand
import CrossAsm.Proofs.Reading
import CrossAsm.Z80

/-!
# CrossAsm — what operands are read from

An operand is written with marks, names of registers and expressions. It keeps the value of each expression, or a part
of that where the address was narrowed. Some forms of the grammars read a token without looking at it first, but
recognise nothing unless that token was a name.

The grammars of both families are followed here once. What the single steps cannot break, reading an operand cannot
break either.

* `Expr.Adapted` — what becomes of the value of an expression, and `Expr.Kept`, of all expressions so far.
* `Trail` — what no step can break.
* `Parser.Traces` — a parser that goes on in such steps, with one lemma for each combinator.
* `Family.Shipped.traces_resolve` — so do the operands of all families that programs can be assembled for.
* `Family.Shipped.reads_resolveOperands` — in particular, the operands of an instruction stay in its statement.
-/

namespace CrossAsm

/-- Whether the lexeme stands for the program counter where an operand is expected. -/
def Lexeme.isCounter : Lexeme → Bool
  | .mark .star | .mark .dollar => true
  | _ => false

theorem Lexeme.not_isCounter_of_name? {l : Lexeme} {name : String} (h : l.name? = some name) :
    l.isCounter = false := by
  cases l with
  | identifier => rfl
  | _ => cases h

/-- Whether the lexeme is read on its own: it does not end the statement, and it does not stand for the program
counter. -/
def Lexeme.isSingle (l : Lexeme) : Bool := l.inStatement && !l.isCounter

theorem Lexeme.isSingle_iff {l : Lexeme} : l.isSingle = true ↔ l.inStatement = true ∧ l.isCounter = false := by
  rw [isSingle, Bool.and_eq_true, Bool.not_eq_true']

theorem Lexeme.isSingle_of_name? {l : Lexeme} {name : String} (h : l.name? = some name) : l.isSingle = true :=
  isSingle_iff.mpr ⟨inStatement_of_name? h, not_isCounter_of_name? h⟩

-- --------
-- What is kept of expressions
-- --------

/-- What becomes of the value of an expression: it stays as it is, it is cut to its low byte, or it is counted from the
address `page`. -/
inductive Adapts (page : Value) : (Value → Value) → Prop
  | same : Adapts page id
  | lowByte {f : Value → Value} (h : Adapts page f) : Adapts page fun v => f v &&& Expr.lowMask 8
  | inPage {f : Value → Value} (h : Adapts page f) : Adapts page fun v => f v + -page

theorem Adapts.comp {page : Value} {f g : Value → Value} (hg : Adapts page g) (hf : Adapts page f) :
    Adapts page (g ∘ f) := by
  induction hg with
  | same => exact hf
  | lowByte _ ih => exact ih.lowByte
  | inPage _ ih => exact ih.inPage

namespace Expr

variable {page : Value} {e v v' : Expr}

/-- The value of `v` is what becomes of the value of `e`. -/
def Adapted (page : Value) (e v : Expr) : Prop :=
  ∃ f, Adapts page f ∧ ∀ base look, v.evaluate base look = (e.evaluate base look).map f

namespace Adapted

theorem refl (e : Expr) : Adapted page e e := by
  refine ⟨id, .same, fun base look => ?_⟩
  cases e.evaluate base look <;> rfl

theorem trans (h : Adapted page e v) (h' : Adapted page v v') : Adapted page e v' := by
  obtain ⟨f, hf, hv⟩ := h
  obtain ⟨g, hg, hv'⟩ := h'
  refine ⟨g ∘ f, hg.comp hf, fun base look => ?_⟩
  rw [hv', hv]
  cases e.evaluate base look <;> rfl

theorem stripParen (e : Expr) : Adapted page e e.stripParen := by
  cases e with
  | paren inner s => exact refl inner
  | _ => exact refl _

theorem lowByte (e : Expr) : Adapted page e (e.mask 8) :=
  ⟨_, Adapts.same.lowByte, fun _ _ => evaluate_mask e 8⟩

theorem offsetBy (e : Expr) : Adapted page e (e.offsetBy (-page)) :=
  ⟨_, Adapts.same.inPage, fun _ _ => evaluate_offsetBy e (-page)⟩

end Adapted

end Expr

/-- Each of the expressions `vs` has its value in one of `vs'`. -/
def Expr.Kept (page : Value) (vs vs' : List Expr) : Prop := ∀ v ∈ vs, ∃ v' ∈ vs', v.Adapted page v'

namespace Expr.Kept

variable {page : Value} {vs vs' : List Expr} {e v : Expr}

theorem of_subset (h : vs ⊆ vs') : Kept page vs vs' := fun v hv => ⟨v, h hv, .refl v⟩

theorem refl (vs : List Expr) : Kept page vs vs := of_subset (List.Subset.refl vs)

theorem nil (vs : List Expr) : Kept page [] vs := of_subset (List.nil_subset vs)

/-- The last expression that was read is adapted. -/
theorem head (h : e.Adapted page v) (vs : List Expr) : Kept page (e :: vs) (v :: vs) := by
  intro x hx
  rcases List.mem_cons.mp hx with rfl | hx
  · exact ⟨v, List.mem_cons_self, h⟩
  · exact ⟨x, List.mem_cons_of_mem v hx, .refl x⟩

theorem lowByte (e : Expr) (vs : List Expr) : Kept page (e :: vs) (e.mask 8 :: vs) := head (.lowByte e) vs

theorem offsetBy (e : Expr) (vs : List Expr) : Kept page (e :: vs) (e.offsetBy (-page) :: vs) :=
  head (.offsetBy e) vs

theorem stripParen (e : Expr) : Kept page [e] [e.stripParen] := head (.stripParen e) []

end Expr.Kept

-- --------
-- Steps
-- --------

/-- The property of a cursor and of what is kept of the expressions before it holds across reading a token on its own,
reading an expression, and keeping less of the expressions. -/
structure Trail (scope : Scope) (page : Value) (R : List Expr → Cursor → Prop) : Prop where
  token : ∀ {vs c}, R vs c → c.peek.lexeme.isSingle = true → R vs c.next
  expr  : ∀ {vs c e c'}, R vs c → (Expr.parse scope 0 c).result = some (e, c') → R (e :: vs) c'
  keep  : ∀ {vs vs' c}, R vs c → Expr.Kept page vs vs' → R vs' c

/-- Operands stay in their statement. -/
theorem Trail.reads (scope : Scope) (page : Value) (c : Cursor) :
    Trail scope page fun _ c' => c.Reads Lexeme.inStatement c' where
  token h hSingle := h.trans (.next (Lexeme.isSingle_iff.mp hSingle).1)
  expr h hRun := h.trans (Expr.reads_parse_inStatement scope 0 _ _ _ hRun)
  keep h _ := h

namespace Parser

variable {α β : Type} {scope : Scope} {page : Value} {vs : List Expr} {c : Cursor} {p q : Parser α}
  {f : α → Parser β} {keep : α → List Expr} {keepLast : β → List Expr}

/-- From `c` on, the parser goes in steps of a trail: behind the expressions `vs`, it keeps `keep a` where it has
recognised `a`. -/
def TracesAt (scope : Scope) (page : Value) (vs : List Expr) (keep : α → List Expr) (p : Parser α) (c : Cursor) :
    Prop :=
  ∀ R, Trail scope page R → ∀ a c', R vs c → (p c).result = some (a, c') → R (keep a) c'

/-- The same wherever the parser starts. -/
def Traces (scope : Scope) (page : Value) (vs : List Expr) (keep : α → List Expr) (p : Parser α) : Prop :=
  ∀ c, p.TracesAt scope page vs keep c

namespace TracesAt

theorem bind (hp : p.TracesAt scope page vs keep c) (hf : ∀ a, (f a).Traces scope page (keep a) keepLast) :
    (p >>= f).TracesAt scope page vs keepLast c := by
  intro R hR b c'' hHere hRun
  rw [result_bind] at hRun
  obtain ⟨⟨a, mid⟩, hMid, hLast⟩ := Option.bind_eq_some_iff.mp hRun
  exact hf a mid R hR b c'' (hp R hR a mid hHere hMid) hLast

theorem orElse (hp : p.TracesAt scope page vs keep c) (hq : q.TracesAt scope page vs keep c) :
    (p <|> q).TracesAt scope page vs keep c := by
  intro R hR a c' hHere hRun
  rw [result_orElse] at hRun
  rcases Option.or_eq_some_iff.mp hRun with hRun | ⟨-, hRun⟩
  · exact hp R hR a c' hHere hRun
  · exact hq R hR a c' hHere hRun

/-- A token may be read that stands on its own, for every way in which the parser goes on. -/
theorem advance {f : Token → Parser β} (hf : (f c.peek).TracesAt scope page vs keepLast c.next)
    (hToken : (f c.peek c.next).result.isSome → c.peek.lexeme.isSingle = true) :
    (Parser.advance >>= f).TracesAt scope page vs keepLast c := by
  intro R hR b c' hHere hRun
  rw [result_bind] at hRun
  change (f c.peek c.next).result = some (b, c') at hRun
  have hSingle := hToken (by rw [hRun]; rfl)
  exact hf R hR b c' (hR.token hHere hSingle) hRun

end TracesAt

namespace Traces

theorem pure {a : α} (h : Expr.Kept page vs (keep a)) : (pure a : Parser α).Traces scope page vs keep := by
  intro c R hR b c' hHere hRun
  cases hRun
  exact hR.keep hHere h

theorem const (a : α) : (Pure.pure a : Parser α).Traces scope page vs fun _ => vs := pure (.refl vs)

/-- Where nothing is recognised, nothing has to be kept. -/
theorem of_result (h : ∀ c, (p c).result = none) : p.Traces scope page vs keep := by
  intro c R hR a c' hHere hRun
  rw [h c] at hRun
  cases hRun

theorem fail : (fail : Parser α).Traces scope page vs keep := of_result fun _ => rfl

theorem problem (d : Diagnostic) : (problem d : Parser α).Traces scope page vs keep := of_result fun _ => rfl

theorem bind (hp : p.Traces scope page vs keep) (hf : ∀ a, (f a).Traces scope page (keep a) keepLast) :
    (p >>= f).Traces scope page vs keepLast :=
  fun c => (hp c).bind hf

theorem orElse (hp : p.Traces scope page vs keep) (hq : q.Traces scope page vs keep) :
    (p <|> q).Traces scope page vs keep :=
  fun c => (hp c).orElse (hq c)

theorem when {condition : Bool} (hp : p.Traces scope page vs keep) :
    (Parser.when condition p).Traces scope page vs keep := by
  cases condition with
  | true => exact hp
  | false => exact fail

theorem peek : Parser.peek.Traces scope page vs fun _ => vs := by
  intro c R _ t c' hHere hRun
  cases hRun
  exact hHere

/-- A parser that reads no expression may as well be left out. -/
theorem optional (hp : p.Traces scope page vs fun _ => vs) :
    (Parser.optional p).Traces scope page vs fun _ => vs := by
  intro c R hR a c' hHere hDone
  unfold Parser.optional at hDone
  cases hRun : p c with
  | mk result problems =>
    rw [hRun] at hDone
    cases result with
    | none =>
      cases hDone
      exact hHere
    | some found =>
      cases hDone
      exact hp c R hR found.1 found.2 hHere (by rw [hRun])

theorem atEnd {a : α} (h : Expr.Kept page vs (keep a)) : (Parser.atEnd a).Traces scope page vs keep := by
  intro c R hR b c' hHere hRun
  unfold Parser.atEnd at hRun
  split at hRun
  · exact pure h c R hR b c' hHere hRun
  · cases hRun

theorem look {f : Cursor → Parser α} (hf : ∀ c, (f c).TracesAt scope page vs keep c) :
    (Parser.look f).Traces scope page vs keep := hf

theorem mark {m : Mark} (h : (Lexeme.mark m).isSingle = true) : (Parser.mark m).Traces scope page vs fun _ => vs := by
  intro c R hR t c' hHere hRun
  obtain ⟨hLexeme, rfl, rfl⟩ := Cursor.eat?_mark_eq_some.mp hRun
  exact hR.token hHere (by rw [hLexeme]; exact h)

theorem word (w : String) : (Parser.word w).Traces scope page vs fun _ => vs := by
  intro c R hR t c' hHere hRun
  obtain ⟨name, hName, rfl⟩ := Cursor.eatWord?_eq_some hRun
  exact hR.token hHere (by rw [hName]; rfl)

theorem parse : (Expr.parse scope 0).Traces scope page vs fun e => e :: vs :=
  fun _ _ hR _ _ hHere hRun => hR.expr hHere hRun

end Traces

end Parser

-- --------
-- The 65xx family
-- --------

namespace Mos65

variable (scope : Scope) (machine : Machine Feature) (request : Request Mode)

/-- The address is kept as its offset in the base page. -/
theorem traces_pageRelative (address : Expr) (vs : List Expr) :
    (pageRelative machine address).Traces scope machine.baseAddress (address :: vs) fun e => e :: vs := by
  unfold pageRelative
  split
  · split
    · exact .pure (.lowByte address vs)
    · exact .problem _
  · exact .pure (.offsetBy address vs)

variable {page : Value}

theorem traces_accumulator : accumulator.Traces scope page [] Operand.values :=
  (Parser.Traces.word _).bind fun _ => .atEnd (.refl _)

theorem tracesAt_immediate {c : Cursor} (hHash : c.isAt (.mark .hash) = true) :
    (immediate scope request).TracesAt scope page [] Operand.values c := by
  refine Parser.TracesAt.advance ?_ fun _ => ?_
  · exact (Parser.Traces.parse.orElse (.problem _)).bind (fun value => .pure (.refl _)) _
  · rw [(Cursor.eat?_mark_eq_some.mp (if_pos hHash)).1]
    rfl

theorem traces_indirect :
    (indirect scope machine).Traces scope machine.baseAddress [] Operand.values := by
  refine (Parser.Traces.mark rfl).bind fun opening => Parser.Traces.parse.bind fun pointer =>
    (Parser.Traces.mark rfl).optional.bind fun comma => ?_
  split
  · refine (Parser.Traces.word _).optional.bind fun index => ?_
    split
    · exact (Parser.Traces.mark rfl).bind fun _ => .atEnd (.refl _)
    · exact (Parser.Traces.word _).bind fun _ => (Parser.Traces.mark rfl).bind fun _ =>
        (Parser.Traces.mark rfl).bind fun _ => (Parser.Traces.word _).bind fun _ => .pure (.refl _)
  · refine (Parser.Traces.mark rfl).bind fun _ => (Parser.Traces.mark rfl).optional.bind fun comma => ?_
    split
    · exact .atEnd (.refl _)
    · refine (Parser.Traces.word _).optional.bind fun index => ?_
      split
      · exact (traces_pageRelative scope machine pointer []).bind fun _ => .pure (.refl _)
      · exact (Parser.Traces.word _).bind fun _ =>
          (traces_pageRelative scope machine pointer []).bind fun _ => .pure (.refl _)

theorem traces_longIndirect :
    (longIndirect scope machine).Traces scope machine.baseAddress [] Operand.values := by
  refine (Parser.Traces.mark rfl).bind fun opening => Parser.Traces.parse.bind fun pointer =>
    (Parser.Traces.mark rfl).bind fun closing => (Parser.Traces.mark rfl).optional.bind fun comma => ?_
  have hPointer (last : Token) : Parser.Traces scope machine.baseAddress [pointer] Operand.values
      (pageRelative machine pointer >>= fun pointer =>
        pure (Operand.withValue Mode.indirectLongZ pointer (opening.span.through last.span))) :=
    (traces_pageRelative scope machine pointer []).bind fun _ => .pure (.refl _)
  split
  · exact (Parser.Traces.word _).bind hPointer
  · exact Parser.Traces.bind (.pure (.refl _)) hPointer

theorem traces_bitNumber (start : Span) :
    (bitNumber scope request start).Traces scope page [] fun bit => [bit] := by
  unfold bitNumber
  split
  · exact .pure (.nil _)
  · exact Parser.Traces.parse.bind fun bit => (Parser.Traces.mark rfl).bind fun _ => .pure (.refl _)

theorem traces_bitOperand :
    (bitOperand scope machine request).Traces scope machine.baseAddress [] Operand.values := by
  refine Parser.Traces.peek.bind fun _ => (traces_bitNumber scope request _).bind fun bit =>
    Parser.Traces.parse.bind fun plain => (traces_pageRelative scope machine plain [bit]).bind fun address => ?_
  split
  · refine (Parser.Traces.mark rfl).bind fun _ => Parser.Traces.parse.bind fun target => .pure (.of_subset ?_)
    show [target, address, bit] ⊆ [bit, address, target]
    simp
  · refine .pure (.of_subset ?_)
    show [address, bit] ⊆ [bit, address]
    simp

theorem traces_widthMark : widthMark.Traces scope page [] fun _ => [] :=
  ((Parser.Traces.mark rfl).bind fun _ => .const _).orElse
    ((((Parser.Traces.mark rfl).orElse (.mark rfl)).bind fun _ => .const _).orElse (.const _))

theorem traces_indexed (vs : List Expr) : indexed.Traces scope page vs fun _ => vs :=
  (Parser.Traces.mark rfl).bind fun _ =>
    ((Parser.Traces.word _).bind fun _ => .const _).orElse ((Parser.Traces.word _).bind fun _ => .const _)

theorem traces_plain (allowed : Modes) : (plain scope allowed).Traces scope page [] Operand.values := by
  refine Parser.Traces.peek.bind fun _ => (traces_widthMark scope).bind fun width =>
    Parser.Traces.parse.bind fun value => ?_
  split
  · exact .pure (.refl _)
  · refine ((traces_indexed scope [value]).orElse (.const _)).bind fun found => ?_
    obtain ⟨wide, narrow, last⟩ := found
    cases width with
    | unmarked => exact .pure (.refl _)
    | wide => exact .pure (.refl _)
    | narrow => exact .pure (.lowByte value [])

theorem traces_grammar :
    (grammar scope machine request).Traces scope machine.baseAddress [] Operand.values := by
  refine .look fun c => ?_
  split
  · exact Parser.Traces.when (.pure (.refl [])) c
  · refine (traces_accumulator scope c).orElse ?_
    split
    · next hHash => exact tracesAt_immediate scope request hHash
    · split
      · exact traces_bitOperand scope machine request c
      · exact ((traces_indirect scope machine).when.orElse
          ((traces_longIndirect scope machine).when.orElse (traces_plain scope request.allowed))) c

end Mos65

-- --------
-- The Z80 family
-- --------

namespace Z80

variable (scope : Scope) (allowed : Modes) {page : Value}

/-- An operand that is written by its name carries no expression. -/
theorem values_of_namedOperand? {name : String} {span : Span} {o : Operand Mode}
    (h : namedOperand? allowed name span = some o) : o.values = [] := by
  simp only [namedOperand?, Option.orElse_eq_orElse, Option.orElse_eq_or, Option.or_eq_some_iff,
    Option.filter_eq_some_iff, Option.map_eq_some_iff, Option.ite_none_right_eq_some,
    Option.some.injEq] at h
  rcases h with ⟨⟨r, -, rfl⟩, -⟩ | ⟨-, ⟨⟨cc, -, rfl⟩, -⟩ | ⟨-, ⟨⟨p, -, rfl⟩, -⟩ |
    ⟨-, ⟨⟨x, -, rfl⟩, -⟩ | ⟨-, ⟨⟨sr, -, rfl⟩, -⟩ | ⟨-, ⟨-, rfl⟩ | ⟨-, ⟨-, rfl⟩ | ⟨-, ⟨r, -, rfl⟩ |
      ⟨-, p, -, rfl⟩⟩⟩⟩⟩⟩⟩⟩ <;> rfl

theorem traces_named : (named allowed).Traces scope page [] Operand.values := by
  intro c
  refine Parser.TracesAt.advance ?_ ?_
  · split
    · next o hNamed =>
      obtain ⟨name, -, hOperand⟩ := Option.bind_eq_some_iff.mp hNamed
      have hKept : Expr.Kept page [] o.values := by
        rw [values_of_namedOperand? allowed hOperand]
        exact .refl []
      exact Parser.Traces.atEnd hKept _
    · exact Parser.Traces.fail _
  · intro hSome
    cases hNamed : c.peek.lexeme.name?.bind (namedOperand? allowed · c.peek.span) with
    | some o =>
      obtain ⟨name, hName, -⟩ := Option.bind_eq_some_iff.mp hNamed
      exact Lexeme.isSingle_of_name? hName
    | none =>
      simp only [hNamed] at hSome
      cases hSome

theorem traces_registerIndirect : registerIndirect.Traces scope page [] Operand.values := by
  refine (Parser.Traces.mark rfl).bind fun _ c => Parser.TracesAt.advance ?_ ?_
  · refine (Parser.Traces.mark rfl).bind (fun _ => ?_) _
    split
    · exact .fail
    · split
      · exact .atEnd (.refl _)
      · split
        · exact .atEnd (.refl _)
        · exact .fail
  · -- The closing parenthesis is read in front of the test, but the outcome hangs on the name.
    intro hSome
    rw [Parser.result_bind] at hSome
    obtain ⟨found, hFound⟩ := Option.isSome_iff_exists.mp hSome
    obtain ⟨⟨closing, c'⟩, -, hLast⟩ := Option.bind_eq_some_iff.mp hFound
    cases hName : c.peek.lexeme.name? with
    | some name => exact Lexeme.isSingle_of_name? hName
    | none =>
      simp only [hName] at hLast
      cases hLast

/-- A displacement that is left out is no expression. -/
theorem traces_displacement (register : Span) :
    (displacement scope register).Traces scope page [] fun e => [e] := by
  refine .look fun c => ?_
  split
  · have hZero : (pure (.const 0 register) : Parser Expr).Traces scope page [] fun e => [e] := .pure (.nil _)
    exact hZero c
  · split
    · next hPlus =>
      refine Parser.TracesAt.advance (Parser.Traces.parse _) fun _ => ?_
      rw [(Cursor.eat?_mark_eq_some.mp (if_pos hPlus)).1]
      rfl
    · exact Parser.Traces.parse.when c

theorem traces_indexed : (indexed scope).Traces scope page [] Operand.values := by
  refine (Parser.Traces.mark rfl).bind fun _ c => Parser.TracesAt.advance ?_ ?_
  · split
    · exact Parser.Traces.fail _
    · exact ((traces_displacement scope _).bind fun _ =>
        (Parser.Traces.mark rfl).bind fun _ => .atEnd (.refl _)) _
  · intro hSome
    cases hNamed : c.peek.lexeme.name?.bind (named? Index.names) with
    | some x =>
      obtain ⟨name, hName, -⟩ := Option.bind_eq_some_iff.mp hNamed
      exact Lexeme.isSingle_of_name? hName
    | none =>
      simp only [hNamed] at hSome
      cases hSome

theorem traces_memory : (memory scope allowed).Traces scope page [] Operand.values := by
  refine Parser.Traces.parse.bind fun address => ?_
  dsimp only
  split
  · exact .atEnd (.stripParen address)
  · exact .fail

theorem traces_plain : (plain scope allowed).Traces scope page [] Operand.values :=
  Parser.Traces.parse.bind fun _ => .pure (.refl _)

theorem traces_grammar (machine : Machine Feature) (request : Request Mode) :
    (grammar scope machine request).Traces scope page [] Operand.values := by
  refine .look fun c => ?_
  split
  · exact Parser.Traces.when (.pure (.refl [])) c
  · have hParenthesized : (parenthesized scope request.allowed).Traces scope page [] Operand.values :=
      (traces_registerIndirect scope).orElse
        ((traces_indexed scope).when.orElse (traces_memory scope request.allowed).when)
    exact ((traces_named scope request.allowed).orElse
      (hParenthesized.when.orElse (traces_plain scope request.allowed))) c

end Z80

-- --------
-- Operands of both
-- --------

/-- Narrowing keeps all other expressions, and of the address its offset in the base page. -/
theorem Operand.traces_narrow {Mode Feature : Type} [DecidableEq Mode] (scope : Scope) (machine : Machine Feature)
    (pairs : List (Mode × Mode)) (allowed : FlagSet Mode) (o : Operand Mode) :
    (Operand.narrow pairs machine allowed o).Traces scope machine.baseAddress o.values Operand.values := by
  have hSame : (pure o : Parser (Operand Mode)).Traces scope machine.baseAddress o.values Operand.values :=
    .pure (.refl _)
  have hNarrow {address e : Expr} {others : List Expr} {mode : Mode} (hValues : o.values = address :: others)
      (hKept : Expr.Kept machine.baseAddress (address :: others) (e :: others)) :
      (pure { o with mode, values := e :: others } : Parser (Operand Mode)).Traces scope machine.baseAddress o.values
        Operand.values :=
    .pure (hValues ▸ hKept)
  unfold Operand.narrow
  split
  · next hValues =>
    split
    · exact hSame
    · split
      · split
        · exact hNarrow hValues (.lowByte _ _)
        · split
          · exact hSame
          · exact .problem _
      · split
        · exact hSame
        · exact hNarrow hValues (.offsetBy _ _)
  · exact hSame

/-- The families that programs can be assembled for. -/
inductive Family.Shipped : {Mnemonic Mode Feature : Type} → Family Mnemonic Mode Feature → Prop
  | mos65 : Shipped Mos65.family
  | z80 : Shipped Z80.family

namespace Family.Shipped

variable {Mnemonic Mode Feature : Type} {F : Family Mnemonic Mode Feature}

theorem traces_grammar (hF : F.Shipped) (scope : Scope) (machine : Machine Feature) (request : Request Mode) :
    (F.grammar scope machine request).Traces scope machine.baseAddress [] Operand.values := by
  cases hF with
  | mos65 => exact Mos65.traces_grammar scope machine request
  | z80 => exact Z80.traces_grammar scope machine request

variable [DecidableEq Mode]

theorem traces_resolve (hF : F.Shipped) (scope : Scope) (machine : Machine Feature) (request : Request Mode) :
    (F.resolve scope machine request).Traces scope machine.baseAddress [] Operand.values := by
  have hLast (o : Operand Mode) : Parser.Traces scope machine.baseAddress o.values Operand.values
      (if o.mode ∈ request.allowed then pure o else Parser.fail) := by
    split
    · exact .pure (.refl _)
    · exact .fail
  refine (hF.traces_grammar scope machine request).bind fun matched => ?_
  split
  · exact Parser.Traces.bind (.pure (.refl _)) hLast
  · exact (Operand.traces_narrow scope machine F.narrowing request.allowed matched).bind hLast

/-- **The operands of an instruction stay in its statement.** -/
theorem reads_resolveOperands [Flag Mode] (hF : F.Shipped) {machine : Machine Feature} {scope : Scope}
    {m : Mnemonic} {implied : Option Nat} {c c' : Cursor} {first second : Operand Mode}
    (h : Encoder.resolveOperands F machine scope m implied c = .ok (first, second, c')) :
    c.Reads Lexeme.inStatement c' := by
  have hResolve {request : Request Mode} {c c' : Cursor} {o : Operand Mode}
      (hRun : F.resolve scope machine request c = .done o c') : c.Reads Lexeme.inStatement c' :=
    hF.traces_resolve scope machine request c _ (.reads scope machine.baseAddress c) o c' (.refl c)
      (by rw [hRun]; rfl)
  obtain ⟨mid, hFirst, hRest⟩ := Encoder.resolves_of_resolveOperands h
  rcases hRest with ⟨-, rfl⟩ | ⟨allowed, t, mid', -, hComma, hSecond⟩
  · exact hResolve hFirst
  · exact ((hResolve hFirst).trans (Cursor.reads_of_eat?_mark hComma)).trans (hResolve hSecond)

end Family.Shipped

end CrossAsm
