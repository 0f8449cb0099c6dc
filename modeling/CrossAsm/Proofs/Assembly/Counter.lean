import CrossAsm.Proofs.Assembly.Instruction
import CrossAsm.Proofs.Assembly.Line
import CrossAsm.Proofs.Assembly.Origin
import CrossAsm.Proofs.Operand.Composition
import CrossAsm.Proofs.Symbol

/-!
# CrossAsm — the program counter in expressions

Where an operand is expected `*` and `$` stand for an address. It is the one at which the output of the statement
starts, except in a list of data, where every item counts from its own place.

* `Mention` — an expression of a statement, with how much of the output stands in front of it.
* `Mention.Means` — the address that it counts from.
* `Assembly.Uses` — what a statement does with its expressions.
* `mentions_of_data` — the items of a list of data, and `mentions_of_wholeStatement`, the expressions of any statement
  but `.org`.
* `Family.counter_is_address_of_item` — so the counter is where the output goes that it is written for.
-/

namespace CrossAsm

theorem Section.withSpan_positionExpr (s : Section) (span span' : Span) :
    (s.positionExpr span).withSpan span' = s.positionExpr span' := by
  unfold positionExpr
  cases s.origin <;> rfl

-- --------
-- Addresses for the counter
-- --------

namespace Phrase

variable {base : Value} {look : String → Span → Except Diagnostic Value}

theorem span_tree (x : Phrase) (k k' : Expr) : (x.tree k).span = (x.tree k').span := by
  induction x with
  | number v s | symbol name s | paren opening closing x ih => rfl
  | star s | dollar s => exact (Expr.span_withSpan k s).trans (Expr.span_withSpan k' s).symm
  | unary op s x ih =>
    show s.through _ = s.through _
    rw [ih]
  | binary op s l r ihl ihr =>
    show Span.hull _ _ = Span.hull _ _
    rw [ihl, ihr]

/-- An expression for the counter may be replaced by its value. -/
theorem evaluate_tree {k : Expr} {v : Value} (h : ∀ s, (k.withSpan s).evaluate base look = .ok v) (x : Phrase) :
    (x.tree k).evaluate base look = (x.tree (.const v .zero)).evaluate base look := by
  induction x with
  | number v s | symbol name s => rfl
  | star s | dollar s => exact h s
  | unary op s x ih =>
    simp only [tree, Expr.evaluate]
    rw [ih]
  | binary op s l r ihl ihr =>
    simp only [tree, Expr.evaluate]
    rw [ihl, ihr, span_tree r k (.const v .zero)]
  | paren opening closing x ih => exact ih

end Phrase

/-- An expression of a statement. -/
structure Mention where
  /-- How it is written. -/
  phrase : Phrase
  /-- How many bytes the statement puts out in front of where the expression goes. -/
  ahead : Nat
  /-- How it is read. -/
  read : Expr

namespace Mention

variable {t t' : SymbolTable} {out : Section} {m : Mention}

/-- In every table that goes on from `t` the expression is worth what the phrase is if `*` and `$` are the address that
is so many bytes behind the end of `out`. -/
def Means (t : SymbolTable) (out : Section) (m : Mention) : Prop :=
  ∀ t' : SymbolTable, t.symbols <+: t'.symbols → ∀ base,
    t'.evaluate base m.read =
      t'.evaluate base (m.phrase.tree (.const (out.origin.getD base + Value.ofNat (out.size + m.ahead)) .zero))

theorem Means.mono (h : m.Means t out) (hMore : t.symbols <+: t'.symbols) : m.Means t' out :=
  fun t'' hMore' => h t'' (hMore.trans hMore')

/-- What is read in a scope counts from the counter of the scope. -/
theorem means_of_folded {scope : Scope} {x : Phrase} {e : Expr} {here : Section} {span : Span} {ahead : Nat}
    (hFolded : x.folded scope = some e) (hCounter : scope.counter = here.positionExpr span)
    (hOrigin : here.origin = out.origin) (hSize : here.size = out.size + ahead) :
    Means scope.symbols out ⟨x, ahead, e⟩ := by
  intro t' hMore base
  have hAddress (s : Span) : (scope.counter.withSpan s).evaluate base (t'.valueOf base t'.symbols) =
      .ok (out.origin.getD base + Value.ofNat (out.size + ahead)) := by
    rw [hCounter, Section.withSpan_positionExpr, Section.evaluate_positionExpr, hOrigin, hSize]
  have hRead := (Phrase.stands_folded hFolded).evaluate base _ (SymbolTable.agrees_valueOf hMore base)
  exact hRead.trans (Phrase.evaluate_tree hAddress x)

end Mention

namespace Assembly

open CrossAsm.Action (KeepsAt)

variable {Mnemonic Mode Feature : Type}

-- --------
-- One expression
-- --------

section Reading

variable {job : Job Mnemonic Mode Feature} {s s' : Assembly Feature} {out : Section} {n : Nat}

variable (out) in
/-- An expression counts from where the output has got to. -/
theorem mention_of_parse {e : Expr} {c : Cursor} (hParse : Expr.parse (s.scopeHere job.family) 0 s.cursor = .done e c)
    (hOrigin : s.current.output.origin = out.origin) (hSize : s.current.output.size = out.size + n) :
    ∃ x, s.cursor.Spells [x] c ∧ Mention.Means s.symbols out ⟨x, n, e⟩ := by
  obtain ⟨x, ts, hRead⟩ := Expr.readAs_of_parse (congrArg Outcome.result hParse)
  have hMeans : Mention.Means (s.scopeHere job.family).symbols out ⟨x, n, e⟩ :=
    Mention.means_of_folded hRead.folded rfl hOrigin hSize
  exact ⟨x, .of_readAs hRead, hMeans⟩

theorem eat_eq_ok {m : Mark} {found : Bool} (h : eat (.mark m) s = .ok found s') :
    found = true ∧ s.cursor.peek.lexeme = .mark m ∧ s' = { s with cursor := s.cursor.next } ∨
      found = false ∧ s.cursor.eat? (.mark m) = none ∧ s' = s := by
  unfold eat at h
  rw [Action.bind_of_ok (look_eq_ok.mpr ⟨rfl, rfl⟩)] at h
  cases hEat : s.cursor.eat? (.mark m) with
  | none =>
    rw [hEat] at h
    obtain ⟨rfl, rfl⟩ := Action.pure_eq_ok.mp h
    exact .inr ⟨rfl, rfl, rfl⟩
  | some result =>
    obtain ⟨t, c⟩ := result
    rw [hEat] at h
    obtain ⟨⟨⟩, s₁, hMove, hDone⟩ := Action.bind_eq_ok.mp h
    obtain rfl := moveTo_eq_ok.mp hMove
    obtain ⟨rfl, rfl⟩ := Action.pure_eq_ok.mp hDone
    obtain ⟨hLexeme, -, rfl⟩ := Cursor.eat?_mark_eq_some.mp hEat
    exact .inl ⟨rfl, hLexeme, rfl⟩

end Reading

-- --------
-- Data
-- --------

/-- An item of a list of data that stands `n` bytes behind the start of the list. A value that does not fit is cut. -/
inductive DataItem (w : Width) (n : Nat) : List Mention → Item → Prop
  | text (content : String) : DataItem w n [] (.bytes (Text.utf8Bytes content.toList))
  | value {m : Mention} {kept : Expr} (hAhead : m.ahead = n) (hKept : kept = m.read ∨ kept = m.read.mask w.bits) :
      DataItem w n [m] (.value kept w)

/-- The items of a list of data from byte `n` on, with the expressions in them. -/
inductive DataItems (w : Width) : Nat → List Mention → List Item → Prop
  | nil (n : Nat) : DataItems w n [] []
  | cons {n : Nat} {ms ms' : List Mention} {item : Item} {items : List Item} (h : DataItem w n ms item)
      (rest : DataItems w (n + item.size) ms' items) : DataItems w n (ms ++ ms') (item :: items)

section Data

variable [DecidableEq Mode] [Flag Mode] {job : Job Mnemonic Mode Feature} {s s' : Assembly Feature} {out : Section}
  {w : Width} {n : Nat}

omit [DecidableEq Mode] [Flag Mode] in
theorem output_of_emitDatum {e : Expr} {a b : Encoder} (h : emitDatum job e w a = .ok () b) :
    ∃ kept, (kept = e ∨ kept = e.mask w.bits) ∧ b.output = a.output.write (.value kept w) := by
  have hWhole (hEmit : Encoder.emitValue e w a = .ok () b) : b.output = a.output.write (.value e w) := by
    have hItem : Encoder.emitItem (.value e w) a = .ok () b := hEmit
    exact (Encoder.writes_emitItem hItem).output
  unfold emitDatum at h
  cases hValue : e.value? with
  | none =>
    rw [hValue] at h
    exact ⟨e, .inl rfl, hWhole h⟩
  | some v =>
    simp only [hValue] at h
    by_cases hFits : v.within w.low w.high = true
    · rw [if_pos hFits] at h
      exact ⟨e, .inl rfl, hWhole h⟩
    · rw [if_neg hFits] at h
      obtain ⟨⟨⟩, a₁, hReport, hEmit⟩ := Action.bind_eq_ok.mp h
      obtain ⟨reported, a₂, hJudge, hModify⟩ := Action.bind_eq_ok.mp hReport
      obtain ⟨-, rfl⟩ := Encoder.require_eq_ok.mp hJudge
      obtain rfl := Action.modify_eq_ok.mp hModify
      obtain rfl := Action.modify_eq_ok.mp hEmit
      exact ⟨e.mask w.bits, .inr rfl, rfl⟩

omit [DecidableEq Mode] [Flag Mode] in
theorem datum_cases (hRun : datum job w s = .ok () s') :
    (∃ content, s.cursor.peek.lexeme = .text content ∧
      s' = ({ s with cursor := s.cursor.next } : Assembly Feature).withEncoder
        { s.encoder with output := s.encoder.output.write (.bytes (Text.utf8Bytes content.toList)) }) ∨
      (expression job >>= fun e => encode (emitDatum job e w)) s = .ok () s' := by
  unfold datum at hRun
  rw [Action.bind_of_ok (look_eq_ok.mpr ⟨rfl, rfl⟩)] at hRun
  cases hLexeme : s.cursor.peek.lexeme with
  | text content =>
    cases w with
    | byte =>
      simp only [hLexeme] at hRun
      obtain ⟨⟨⟩, s₁, hMove, hEncode⟩ := Action.bind_eq_ok.mp hRun
      obtain rfl := moveTo_eq_ok.mp hMove
      obtain ⟨e, hEmit, rfl⟩ := encode_eq_ok hEncode
      obtain rfl := Action.modify_eq_ok.mp hEmit
      exact .inl ⟨content, rfl, rfl⟩
    | _ =>
      simp only [hLexeme] at hRun
      exact .inr hRun
  | _ =>
    simp only [hLexeme] at hRun
    exact .inr hRun

omit [DecidableEq Mode] [Flag Mode] in
/-- **One item** is a text without expressions or one expression. -/
theorem mentions_of_datum (hRun : datum job w s = .ok () s') (hOrigin : s.current.output.origin = out.origin)
    (hSize : s.current.output.size = out.size + n) :
    ∃ ms item, s.cursor.Spells (ms.map Mention.phrase) s'.cursor ∧ DataItem w n ms item ∧
      s'.current.output = s.current.output.write item ∧ ∀ m ∈ ms, m.Means s.symbols out := by
  rcases datum_cases hRun with ⟨content, hText, rfl⟩ | hValue
  · exact ⟨[], _, .next (by rw [hText]; rfl), .text content, rfl, fun _ hMem => absurd hMem List.not_mem_nil⟩
  · obtain ⟨e, s₁, hExpression, hEncode⟩ := Action.bind_eq_ok.mp hValue
    obtain ⟨c, hParse, rfl⟩ := expression_eq_ok hExpression
    obtain ⟨a, hEmit, rfl⟩ := encode_eq_ok hEncode
    obtain ⟨x, hSpells, hMeans⟩ := mention_of_parse out hParse hOrigin hSize
    obtain ⟨kept, hKept, hOutput⟩ := output_of_emitDatum hEmit
    refine ⟨[⟨x, n, e⟩], .value kept w, hSpells, .value rfl hKept, hOutput, fun m hm => ?_⟩
    rw [List.mem_singleton.mp hm]
    exact hMeans

variable (out) in
/-- **A list of data.** The invariant is where the output has got to: `n` bytes behind `out`. -/
theorem mentions_of_data {fuel : Nat} (hRun : data job w fuel s = .ok () s')
    (hOrigin : s.current.output.origin = out.origin) (hSize : s.current.output.size = out.size + n) :
    ∃ ms items, s.cursor.Spells (ms.map Mention.phrase) s'.cursor ∧ DataItems w n ms items ∧
      s'.current.output = s.current.output.writeAll items ∧ ∀ m ∈ ms, m.Means s'.symbols out := by
  induction fuel generalizing s n with
  | zero =>
    obtain ⟨-, rfl⟩ := Action.pure_eq_ok.mp hRun
    exact ⟨[], [], .refl _, .nil n, rfl, fun _ hMem => absurd hMem List.not_mem_nil⟩
  | succ fuel ih =>
    obtain ⟨⟨⟩, s₁, hDatum, hTail⟩ := Action.bind_eq_ok.mp hRun
    obtain ⟨ms, item, hSpells, hItem, hOutput, hMeans⟩ := mentions_of_datum hDatum hOrigin hSize
    have hAppends : Appends s s₁ := ((admits_appends job).keeps_datum w).of_ok hDatum
    obtain ⟨found, s₂, hEat, hRest⟩ := Action.bind_eq_ok.mp hTail
    rcases eat_eq_ok hEat with ⟨rfl, hComma, rfl⟩ | ⟨rfl, -, rfl⟩
    · have hSize₁ : s₁.current.output.size = out.size + (n + item.size) := by
        rw [hOutput, Section.size_write, hSize, Nat.add_assoc]
      obtain ⟨ms', items, hSpells', hItems, hOutput', hMeans'⟩ :=
        ih hRest (hAppends.encoder.origin.trans hOrigin) hSize₁
      have hAppends' : Appends { s₁ with cursor := s₁.cursor.next } s' :=
        ((admits_appends job).keeps_data w fuel).of_ok hRest
      have hToken : s₁.cursor.Spells [] s₁.cursor.next := .next (by rw [hComma]; rfl)
      refine ⟨ms ++ ms', item :: items, ?_, .cons hItem hItems, ?_, fun m hm => ?_⟩
      · rw [List.map_append]
        exact hSpells.trans (hToken.trans hSpells')
      · rw [hOutput', hOutput]
        rfl
      · rcases List.mem_append.mp hm with hm | hm
        · exact (hMeans m hm).mono (hAppends.encoder.symbols.trans hAppends'.encoder.symbols)
        · exact hMeans' m hm
    · obtain ⟨-, rfl⟩ := Action.pure_eq_ok.mp hRest
      refine ⟨ms ++ [], [item], ?_, .cons hItem (.nil _), hOutput, fun m hm => ?_⟩
      · rw [List.append_nil]
        exact hSpells
      · rw [List.append_nil] at hm
        exact (hMeans m hm).mono hAppends.encoder.symbols

end Data

-- --------
-- Statements
-- --------

/-- What the statement between `s` and `s'` does with its expressions, where `t` has the definitions. -/
inductive Uses [DecidableEq Mode] [Flag Mode] (F : Family Mnemonic Mode Feature) (t : SymbolTable)
    (s s' : Assembly Feature) : List Mention → Prop
  /-- Its operands keep them. -/
  | instruction {w : Pending Mnemonic Feature} {first second : Operand Mode} {c : Cursor} {ms : List Mention}
      (hHead : pending? F s = some w) (hOperands : w.operands F = .ok (first, second, c))
      (hKept : ∀ m ∈ ms, m.ahead = 0 ∧
        ∃ v ∈ first.values ++ second.values, m.read.Adapted s.machine.baseAddress v) : Uses F t s s' ms
  | definition {m : Mention} {name : String} {span : Span}
      (hName : s.cursor.behindLabel.peek.lexeme = .identifier name) (hAhead : m.ahead = 0)
      (hDefined : t.find? name = some ⟨name, m.read, span⟩) : Uses F t s s' [m]
  | basePage {m : Mention} (hDirective : s.cursor.behindLabel.directive? = some .basePage) (hAhead : m.ahead = 0)
      (hValue : m.read.value? = some s'.machine.basePage) : Uses F t s s' [m]
  | data {w : Width} {ms : List Mention} {items : List Item}
      (hDirective : s.cursor.behindLabel.directive? = some (.data w)) (hItems : DataItems w 0 ms items)
      (hOutput : s'.current.output = s.current.output.writeAll items) : Uses F t s s' ms
  | nothing (h : s.cursor.behindLabel.atStatementEnd = true ∨
      ∃ d, s.cursor.behindLabel.directive? = some d ∧ d.takesWord = true) : Uses F t s s' []

section Statement

variable [DecidableEq Mode] [Flag Mode] [Flag Feature] {job : Job Mnemonic Mode Feature} {s s' : Assembly Feature}

omit [Flag Feature] in
theorem Uses.mono {F : Family Mnemonic Mode Feature} {t t' : SymbolTable} {s'' : Assembly Feature} {ms : List Mention}
    (h : Uses F t s s' ms) (hMore : t.symbols <+: t'.symbols) (hMachine : s''.machine = s'.machine)
    (hOutput : s''.current.output = s'.current.output) : Uses F t' s s'' ms := by
  cases h with
  | instruction hHead hOperands hKept => exact .instruction hHead hOperands hKept
  | definition hName hAhead hDefined => exact .definition hName hAhead (SymbolTable.find?_mono hMore hDefined)
  | basePage hDirective hAhead hValue => exact .basePage hDirective hAhead (hMachine ▸ hValue)
  | data hDirective hItems hWritten => exact .data hDirective hItems (hOutput.trans hWritten)
  | nothing h => exact .nothing h

omit [DecidableEq Mode] [Flag Mode] [Flag Feature] in
theorem spells_behindLabel (c : Cursor) : c.Spells [] c.behindLabel := by
  unfold Cursor.behindLabel
  cases hLabel : c.label? with
  | none => exact .refl c
  | some found =>
    obtain ⟨name, span⟩ := found
    obtain ⟨hName, hColon, -⟩ := Cursor.label?_eq_some hLabel
    have hFirst : c.Spells [] c.next := .next (by rw [hName]; rfl)
    have hSecond : c.next.Spells [] c.next.next := .next (by rw [Cursor.lexeme_of_isAt_mark hColon]; rfl)
    exact hFirst.trans hSecond

omit [DecidableEq Mode] [Flag Mode] [Flag Feature] in
/-- The name of a directive has no expressions in it. -/
theorem spells_directive? {c : Cursor} {d : Directive} (h : c.directive? = some d) : c.Spells [] c.next.next := by
  obtain ⟨hPeriod, name, hName, -⟩ := Cursor.directive?_eq_some h
  rw [← Cursor.peek_next] at hName
  have hFirst : c.Spells [] c.next := .next (by rw [Cursor.lexeme_of_isAt_mark hPeriod]; rfl)
  exact hFirst.trans (.next (Lexeme.not_isCounter_of_name? hName))

theorem cursor_of_wholeStatement (hF : job.family.Shipped) (hRun : wholeStatement job s = .ok () s') :
    s'.cursor = s.cursor.skipStatement := by
  have hCursor := cursor_statement_of_ok hF hRun
  rw [statement_of_ok hRun] at hCursor
  exact hCursor

theorem appends_of_wholeStatement (hRun : wholeStatement job s = .ok () s')
    (hAt : atOrigin s.cursor.behindLabel = false) : Appends s s' := by
  cases (effect_wholeStatement job).of_ok hRun with
  | appends h => exact h
  | opens hOrigin =>
    rw [hAt] at hOrigin
    cases hOrigin

/-- What stands behind a label appends to the output, unless it is `.org`. -/
theorem appends_behindLabel (hRun : wholeStatement job s = .ok () s')
    (hAt : atOrigin s.cursor.behindLabel = false) : Appends (behindLabel s) s' := by
  have hContent := optionalContent_behindLabel hAt (parts_of_wholeStatement hRun).1
  refine ((admits_appends job).keepsAt_optionalContent ?_ ?_).of_ok hContent
  · intro hOrigin
    rw [cursor_behindLabel, hAt] at hOrigin
    cases hOrigin
  · intro _ a
    exact (Labels.of_cursor a _).appends

omit [DecidableEq Mode] [Flag Mode] [Flag Feature] in
theorem eatEquals_cases {found : Bool} (h : eatEquals s = .ok found s') :
    found = true ∧ s.cursor.Spells [] s.cursor.next ∧ s' = { s with cursor := s.cursor.next } ∨
      found = false ∧ s' = s ∧ s.cursor.eat? (.mark .equals) = none ∧ s.cursor.eatWord? "equ" = none := by
  obtain ⟨equals, s₁, hEat, hRest⟩ := Action.bind_eq_ok.mp h
  rcases eat_eq_ok hEat with ⟨rfl, hLexeme, rfl⟩ | ⟨rfl, hEquals, rfl⟩
  · obtain ⟨rfl, rfl⟩ := Action.pure_eq_ok.mp hRest
    exact .inl ⟨rfl, .next (by rw [hLexeme]; rfl), rfl⟩
  · have hWord : eatWord "equ" s₁ = .ok found s' := hRest
    unfold eatWord at hWord
    rw [Action.bind_of_ok (look_eq_ok.mpr ⟨rfl, rfl⟩)] at hWord
    cases hEatWord : s₁.cursor.eatWord? "equ" with
    | some result =>
      obtain ⟨t, c⟩ := result
      obtain ⟨name, hName, rfl⟩ := Cursor.eatWord?_eq_some hEatWord
      rw [hEatWord] at hWord
      obtain ⟨⟨⟩, s₂, hMove, hDone⟩ := Action.bind_eq_ok.mp hWord
      obtain rfl := moveTo_eq_ok.mp hMove
      obtain ⟨rfl, rfl⟩ := Action.pure_eq_ok.mp hDone
      exact .inl ⟨rfl, .next (by rw [hName]; rfl), rfl⟩
    | none =>
      rw [hEatWord] at hWord
      obtain ⟨rfl, rfl⟩ := Action.pure_eq_ok.mp hWord
      exact .inr ⟨rfl, rfl, hEquals, rfl⟩

omit [Flag Feature] in
/-- Operands behind which nothing stands go to the end of the statement. -/
theorem skipStatement_of_operands {F : Family Mnemonic Mode Feature} {w : Pending Mnemonic Feature}
    {first second : Operand Mode} {c : Cursor} (hF : F.Shipped) (h : pending? F s = some w)
    (hOperands : w.operands F = .ok (first, second, c)) (hEnd : c.atStatementEnd = true) :
    s.cursor.skipStatement = c := by
  obtain ⟨name, hName, hStart⟩ := cursor_of_pending? h
  have hFirst : s.cursor.behindLabel.Reads Lexeme.inStatement s.cursor.behindLabel.next := .next (by rw [hName]; rfl)
  have hRest := hF.reads_resolveOperands hOperands
  rw [hStart] at hRest
  exact ((s.cursor.reads_behindLabel.trans (hFirst.trans hRest)).eq_skipStatement hEnd).symm

/-- The symbols at an instruction are still there behind it. -/
theorem symbols_of_pending? {w : Pending Mnemonic Feature} (hRun : wholeStatement job s = .ok () s')
    (h : pending? job.family s = some w) : w.state.symbols.symbols <+: s'.symbols.symbols := by
  obtain ⟨name, hName, -⟩ := cursor_of_pending? h
  have hAt : atOrigin s.cursor.behindLabel = false := by
    simp [atOrigin, Cursor.isAt, hName, Lexeme.kind]
  obtain ⟨-, -, -, -, -, -, hState⟩ := pending?_eq_some h
  rw [hState]
  exact (appends_behindLabel hRun hAt).encoder.symbols

/-- An instruction counts from where it starts. -/
theorem mentions_of_instruction {w : Pending Mnemonic Feature} (hF : job.family.Shipped)
    (hRun : wholeStatement job s = .ok () s') (hHead : pending? job.family s = some w) :
    ∃ ms, s.cursor.Spells (ms.map Mention.phrase) s.cursor.skipStatement ∧ Uses job.family s'.symbols s s' ms ∧
      ∀ m ∈ ms, m.Means s'.symbols s.current.output := by
  obtain ⟨first, second, c, e, hOperands, hEnd, -⟩ := finish_of_wholeStatement hRun hHead
  obtain ⟨symbols, c₀, hState⟩ := relabels_of_pending? hHead
  obtain ⟨es, hScans, hKept⟩ := hF.composed_resolveOperands hOperands
  obtain ⟨xs, hSpells, hFolded⟩ := hScans.spells
  let mention (x : Phrase) : Mention := ⟨x, 0, (x.folded (w.scope job.family)).getD (.const 0 .zero)⟩
  have hMention {m : Mention} (hm : m ∈ xs.map mention) :
      ∃ x, ∃ e ∈ es, x.folded (w.scope job.family) = some e ∧ m = ⟨x, 0, e⟩ := by
    obtain ⟨x, hx, rfl⟩ := List.mem_map.mp hm
    obtain ⟨e, he, hRead⟩ := hFolded x hx
    exact ⟨x, e, he, hRead, by rw [← Option.getD_some (a := e), ← hRead]⟩
  refine ⟨xs.map mention, ?_, .instruction hHead hOperands fun m hm => ?_, fun m hm => ?_⟩
  · obtain ⟨name, hName, hStart⟩ := cursor_of_pending? hHead
    have hFirst : s.cursor.behindLabel.Spells [] s.cursor.behindLabel.next := .next (by rw [hName]; rfl)
    have hPhrases : (xs.map mention).map Mention.phrase = xs := by
      rw [List.map_map]
      exact List.map_id xs
    rw [hPhrases, skipStatement_of_operands hF hHead hOperands hEnd]
    rw [hStart] at hSpells
    exact (spells_behindLabel s.cursor).trans (hFirst.trans hSpells)
  · obtain ⟨x, e, he, -, rfl⟩ := hMention hm
    obtain ⟨v, hv, hAdapted⟩ := hKept e he
    rw [hState] at hAdapted
    exact ⟨rfl, v, hv, hAdapted⟩
  · obtain ⟨x, e, -, hRead, rfl⟩ := hMention hm
    have hOutput : w.state.current.output = s.current.output := by rw [hState]
    have hMeans : Mention.Means (w.scope job.family).symbols s.current.output ⟨x, 0, e⟩ :=
      Mention.means_of_folded hRead rfl (by rw [hOutput]) (by rw [hOutput]; rfl)
    exact hMeans.mono (symbols_of_pending? hRun hHead)

omit [DecidableEq Mode] [Flag Mode] [Flag Feature] in
/-- A directive that takes a word has no expressions. -/
theorem spells_of_takesWord {d : Directive} {span : Span} (hRun : carryOut job span d s = .ok () s')
    (hWord : d.takesWord = true) : s.cursor.Spells [] s'.cursor := by
  have hEnd {act : Assemble Feature Unit} (h : act { s with cursor := s.cursor.next } = .ok () s')
      (hCursor : KeepsAt (fun a b => b.cursor = a.cursor) act { s with cursor := s.cursor.next })
      (hToken : s.cursor.peek.lexeme.isCounter = false) : s.cursor.Spells [] s'.cursor := by
    rw [hCursor.of_ok h]
    exact .next hToken
  cases d with
  | origin | data | basePage => cases hWord
  | cpu =>
    obtain ⟨t, s₁, hAdvance, hRest⟩ := Action.bind_eq_ok.mp hRun
    obtain ⟨rfl, rfl⟩ := EStateM.Result.ok.inj ((advance_eq s).symm.trans hAdvance)
    refine hEnd hRest ?_ ?_
    · split
      · rfl
      · split <;> rfl
    · cases hLexeme : s.cursor.peek.lexeme with
      | mark m =>
        rw [hLexeme] at hRest
        exact absurd hRest Action.throw_ne_ok
      | _ => rfl
  | synthesis =>
    obtain ⟨t, s₁, hAdvance, hRest⟩ := Action.bind_eq_ok.mp hRun
    obtain ⟨rfl, rfl⟩ := EStateM.Result.ok.inj ((advance_eq s).symm.trans hAdvance)
    refine hEnd hRest ?_ ?_
    · split <;> rfl
    · cases hLexeme : s.cursor.peek.lexeme with
      | mark m =>
        rw [hLexeme] at hRest
        exact absurd hRest Action.throw_ne_ok
      | _ => rfl

omit [Flag Feature] in
/-- The state behind the label of a statement. -/
theorem exists_behindLabel (s : Assembly Feature) :
    ∃ symbols, behindLabel s = { s with symbols, cursor := s.cursor.behindLabel } := by
  obtain ⟨symbols, c, hSame⟩ := relabels_behindLabel s
  have hCursor := cursor_behindLabel s
  rw [hSame] at hCursor
  refine ⟨symbols, ?_⟩
  rw [hSame, ← hCursor]

/-- Directives but for `.org` count from where they start, except that the items of a list of data do so one by one. -/
theorem mentions_of_directive {d : Directive} (hContent : optionalContent job (behindLabel s) = .ok () s')
    (hDirective : s.cursor.behindLabel.directive? = some d) (hOrigin : d ≠ .origin) :
    ∃ ms, s.cursor.behindLabel.Spells (ms.map Mention.phrase) s'.cursor ∧ Uses job.family s'.symbols s s' ms ∧
      ∀ m ∈ ms, m.Means s'.symbols s.current.output := by
  obtain ⟨symbols, hState⟩ := exists_behindLabel s
  have hName := spells_directive? hDirective
  rw [hState, optionalContent_of_directive? hDirective] at hContent
  cases d with
  | origin => exact absurd rfl hOrigin
  | data w =>
    obtain ⟨c, s₁, hLook, hData⟩ := Action.bind_eq_ok.mp hContent
    obtain ⟨rfl, rfl⟩ := look_eq_ok.mp hLook
    obtain ⟨ms, items, hSpells, hItems, hOutput, hMeans⟩ := mentions_of_data s.current.output (n := 0) hData rfl rfl
    exact ⟨ms, hName.trans hSpells, .data hDirective hItems hOutput, hMeans⟩
  | basePage =>
    obtain ⟨v, s₁, hConstant, hModify⟩ := Action.bind_eq_ok.mp hContent
    obtain ⟨e, c, hParse, hValue, rfl⟩ := constant_eq_ok hConstant
    obtain rfl := Action.modify_eq_ok.mp hModify
    obtain ⟨x, hSpells, hMeans⟩ := mention_of_parse s.current.output (n := 0) hParse rfl rfl
    refine ⟨[⟨x, 0, e⟩], hName.trans hSpells, .basePage hDirective rfl hValue, fun m hm => ?_⟩
    rw [List.mem_singleton.mp hm]
    exact hMeans
  | cpu | synthesis =>
    exact ⟨[], hName.trans (spells_of_takesWord hContent rfl), .nothing (.inr ⟨_, hDirective, rfl⟩),
      fun _ hMem => absurd hMem List.not_mem_nil⟩

omit [Flag Feature] in
/-- Definitions count from where the output has got to. -/
theorem mentions_of_definition {name : String} {span : Span} {c : Cursor}
    (hRun : definition job name span { behindLabel s with cursor := c } = .ok () s')
    (hName : s.cursor.behindLabel.peek.lexeme = .identifier name) :
    ∃ ms, c.Spells (ms.map Mention.phrase) s'.cursor ∧ Uses job.family s'.symbols s s' ms ∧
      ∀ m ∈ ms, m.Means s'.symbols s.current.output := by
  obtain ⟨symbols, hState⟩ := exists_behindLabel s
  rw [hState] at hRun
  obtain ⟨e, s₁, hExpression, hDefine⟩ := Action.bind_eq_ok.mp hRun
  obtain ⟨c', hParse, rfl⟩ := expression_eq_ok hExpression
  obtain ⟨symbols', hSymbols, rfl⟩ := define_eq_ok.mp hDefine
  obtain ⟨x, hSpells, hMeans⟩ := mention_of_parse s.current.output (n := 0) hParse rfl rfl
  refine ⟨[⟨x, 0, e⟩], hSpells, .definition hName rfl (SymbolTable.find?_of_define hSymbols), fun m hm => ?_⟩
  rw [List.mem_singleton.mp hm]
  exact hMeans.mono (SymbolTable.prefix_of_define hSymbols)

/-- A name without an equals sign behind it that gets through is an instruction. -/
theorem exists_pending {name : String} {span : Span} {c : Cursor}
    (hRun : instruction job name span { behindLabel s with cursor := c } = .ok () s')
    (hName : (behindLabel s).cursor.peek.lexeme = .identifier name)
    (hEquals : (behindLabel s).cursor.next.eat? (.mark .equals) = none)
    (hWord : (behindLabel s).cursor.next.eatWord? "equ" = none) : ∃ w, pending? job.family s = some w := by
  unfold instruction at hRun
  cases hMnemonic : job.family.mnemonic? name with
  | none =>
    rw [hMnemonic] at hRun
    exact absurd hRun Action.throw_ne_ok
  | some found =>
    unfold pending?
    simp only [hName, hEquals, hWord, hMnemonic]
    exact ⟨_, rfl⟩

/-- **The expressions of a statement.** All of them are read and used, and all count from an address in its output. -/
theorem mentions_of_wholeStatement (hF : job.family.Shipped) (hRun : wholeStatement job s = .ok () s')
    (hAt : atOrigin s.cursor.behindLabel = false) :
    ∃ ms, s.cursor.Spells (ms.map Mention.phrase) s.cursor.skipStatement ∧ Uses job.family s'.symbols s s' ms ∧
      ∀ m ∈ ms, m.Means s'.symbols s.current.output := by
  have hContent := optionalContent_behindLabel hAt (parts_of_wholeStatement hRun).1
  have hLabel := spells_behindLabel s.cursor
  have hLast := cursor_of_wholeStatement hF hRun
  rcases optionalContent_cases hContent with hEnd | ⟨d, hDirective⟩ | ⟨name, hName⟩
  · rw [optionalContent_of_end hEnd] at hContent
    cases hContent
    rw [cursor_behindLabel] at hEnd hLast
    rw [← hLast]
    exact ⟨[], hLabel, .nothing (.inl hEnd), fun _ hMem => absurd hMem List.not_mem_nil⟩
  · rw [cursor_behindLabel] at hDirective
    have hOrigin : d ≠ .origin := by
      rintro rfl
      rw [(Cursor.atOrigin_iff _).mpr hDirective] at hAt
      cases hAt
    obtain ⟨ms, hSpells, hUses, hMeans⟩ := mentions_of_directive hContent hDirective hOrigin
    rw [hLast] at hSpells
    exact ⟨ms, hLabel.trans hSpells, hUses, hMeans⟩
  · rw [optionalContent_of_name hName] at hContent
    obtain ⟨found, s₁, hEat, hRest⟩ := Action.bind_eq_ok.mp hContent
    rcases eatEquals_cases hEat with ⟨rfl, hEquals, rfl⟩ | ⟨rfl, rfl, hEquals, hWord⟩
    · rw [cursor_behindLabel] at hName hEquals
      obtain ⟨ms, hSpells, hUses, hMeans⟩ := mentions_of_definition hRest hName
      rw [cursor_behindLabel, hLast] at hSpells
      have hFirst : s.cursor.behindLabel.Spells [] s.cursor.behindLabel.next := .next (by rw [hName]; rfl)
      exact ⟨ms, hLabel.trans (hFirst.trans (hEquals.trans hSpells)), hUses, hMeans⟩
    · obtain ⟨w, hHead⟩ := exists_pending hRest hName hEquals hWord
      exact mentions_of_instruction hF hRun hHead

/-- The region of a statement stays where it is, if the statement has output or no `.org` moves the region. -/
theorem load_steps {n : Nat} (hRun : wholeStatement job s = .ok () s') (hAt : atOrigin s.cursor.behindLabel = false)
    (hStays : 0 < (entry job s s').length ∨
      ∀ later ∈ visits job n (statement job s), later.movesRegion s'.regionIndex = false) :
    ∃ r, (steps job n (statement job s)).regions[s'.regionIndex]? = some r ∧
      ∀ base, r.load base = s.current.output.origin.getD base := by
  have hLater : ∀ later ∈ visits job n (statement job s), later.movesRegion s'.regionIndex = false := by
    rcases hStays with hLength | hStays
    · have hHere : (statement job s).regions[s'.regionIndex]? = some s'.current := by
        rw [statement_of_ok hRun]
        exact getElem?_regions_regionIndex s'
      have hPos : 0 < s'.current.output.size := Nat.lt_of_lt_of_le hLength (Nat.sub_le _ _)
      exact stays_of_size_pos hHere hPos
    · exact hStays
  obtain ⟨r, hr, hOrigin⟩ := origin_steps hRun hLater
  have hKept : s'.current.output.origin = s.current.output.origin := (appends_of_wholeStatement hRun hAt).encoder.origin
  exact ⟨r, hr, fun base => by rw [Region.load, hOrigin, hKept]⟩

end Statement

end Assembly

-- --------
-- Programs
-- --------

namespace Family

variable {Mnemonic Mode Feature : Type} [DecidableEq Mode] [Flag Mode] [Flag Feature]
  {F : Family Mnemonic Mode Feature} {machine : Machine Feature} {policy : Policy} {source : String}
  {p : Program}

/-- **The counter is the address of what it is written for.** Every `*` and `$` of a statement other than `.org` is in an
expression that the statement uses. It is the address at which the output of the statement starts, or that of the item
in a list of data: the items in front of that item have been put out then. -/
theorem counter_is_address_of_item {before after : List (Assembly Feature)} {s : Assembly Feature} (hF : F.Shipped)
    (hAssembled : (F.assemble machine policy source).result = .ok p)
    (hStates : F.states machine policy source = before ++ s :: after) (hAt : s.cursor.isAt .newline = false)
    (hOrigin : Assembly.atOrigin s.cursor.behindLabel = false) :
    ∃ entry ms, p.listing[s.listing.length]? = some entry ∧ entry.region = s.regionIndex ∧
      s.cursor.Spells (ms.map Mention.phrase) s.cursor.skipStatement ∧
      Assembly.Uses F p.symbols s (Assembly.statement (F.job policy source) s) ms ∧
      (∀ m ∈ ms, ∀ base, p.symbols.evaluate base m.read = p.symbols.evaluate base (m.phrase.tree
        (.const (s.current.output.origin.getD base + Value.ofNat (entry.offset + m.ahead)) .zero))) ∧
      -- Only a statement without output may lose its place, to an `.org` behind it that moves the empty region.
      (0 < entry.length ∨ (∀ later ∈ after, later.movesRegion entry.region = false) →
        ∃ r, p.regions[entry.region]? = some r ∧ ∀ base, r.load base = s.current.output.origin.getD base) := by
  obtain ⟨s', n, final, hRun, rfl, rfl, rfl⟩ := accepted_run hAssembled hStates hAt
  have hShipped : (F.job policy source).family.Shipped := hF
  obtain ⟨ms, hSpells, hUses, hMeans⟩ := Assembly.mentions_of_wholeStatement hShipped hRun hOrigin
  have hAppends := Assembly.appends_of_wholeStatement hRun hOrigin
  have hIndex : s'.regionIndex = s.regionIndex := hAppends.regionIndex_eq
  have hOffset : (Assembly.entry (F.job policy source) s s').offset = s.current.output.size := if_pos hIndex
  have hNext := Assembly.statement_of_ok hRun
  have hMore : s'.symbols.symbols <+:
      (Assembly.steps (F.job policy source) n (Assembly.statement (F.job policy source) s)).symbols.symbols := by
    have hSame : (Assembly.statement (F.job policy source) s).symbols = s'.symbols := by rw [hNext]
    rw [← hSame]
    exact (Assembly.continues_steps (F.job policy source) _ n).symbols
  refine ⟨_, ms, Assembly.listing_steps hRun n, hIndex, hSpells, ?_, ?_, Assembly.load_steps hRun hOrigin⟩
  · exact hUses.mono hMore (by rw [hNext]) (by rw [hNext])
  · intro m hm base
    rw [hOffset]
    exact hMeans m hm _ hMore base

set_option maxRecDepth 10000 in
/-- Behind a label and in a relocatable region, with a text and a value in front of the counter. -/
theorem counter_is_address_of_item_text :
    ∃ p before s after entry ms r,
      (Mos65.family.assemble { features := {.base} } {} "nop\na:.byte \"b\",1,*\n").result = .ok p ∧
      Mos65.family.states { features := {.base} } {} "nop\na:.byte \"b\",1,*\n" = before ++ s :: after ∧
      s.cursor.isAt .newline = false ∧ Assembly.atOrigin s.cursor.behindLabel = false ∧
      p.listing[s.listing.length]? = some entry ∧ entry = ⟨2, 0, 1, 3⟩ ∧
      s.cursor.Spells (ms.map Mention.phrase) s.cursor.skipStatement ∧
      Assembly.Uses Mos65.family p.symbols s
        (Assembly.statement (Mos65.family.job {} "nop\na:.byte \"b\",1,*\n") s) ms ∧
      (∀ m ∈ ms, ∀ base, p.symbols.evaluate base m.read =
        p.symbols.evaluate base (m.phrase.tree (.const (base + Value.ofNat (1 + m.ahead)) .zero))) ∧
      p.regions[0]? = some r ∧ ∀ base, r.load base = base := by
  have hProgram : (Mos65.family.assemble { features := {.base} } {} "nop\na:.byte \"b\",1,*\n").result.toOption.any
      (fun p => p.listing == [⟨1, 0, 0, 1⟩, ⟨2, 0, 1, 3⟩]) = true := by decide +kernel
  have hThird : ((Mos65.family.states { features := {.base} } {} "nop\na:.byte \"b\",1,*\n")[2]?.any fun s =>
      !s.cursor.isAt .newline && !Assembly.atOrigin s.cursor.behindLabel && s.listing.length == 1 &&
        s.current.output.origin.isNone) = true := by decide +kernel
  obtain ⟨p, hp, hListing⟩ := (Option.any_eq_true _ _).mp hProgram
  obtain ⟨s, hs, hCheck⟩ := (Option.any_eq_true _ _).mp hThird
  simp only [Bool.and_eq_true, Bool.not_eq_true', beq_iff_eq, Option.isNone_iff_eq_none] at hCheck hListing
  obtain ⟨⟨⟨hAt, hOrigin⟩, hLength⟩, hBase⟩ := hCheck
  have hAssembled := Action.ok_of_toOption hp
  have hStates : Mos65.family.states { features := {.base} } {} "nop\na:.byte \"b\",1,*\n" =
      (Mos65.family.states { features := {.base} } {} "nop\na:.byte \"b\",1,*\n").take 2 ++ s ::
        (Mos65.family.states { features := {.base} } {} "nop\na:.byte \"b\",1,*\n").drop 3 := by
    obtain ⟨hBound, rfl⟩ := List.getElem?_eq_some_iff.mp hs
    rw [← List.drop_eq_getElem_cons hBound, List.take_append_drop]
  obtain ⟨entry, ms, hEntry, -, hSpells, hUses, hMeans, hLoad⟩ :=
    counter_is_address_of_item .mos65 hAssembled hStates hAt hOrigin
  have hSecond : entry = ⟨2, 0, 1, 3⟩ := by
    rw [hListing, hLength] at hEntry
    exact (Option.some.inj hEntry).symm
  rw [hSecond] at hMeans hLoad
  obtain ⟨r, hr, hLoad⟩ := hLoad (.inl (by decide))
  rw [hBase] at hMeans hLoad
  exact ⟨p, _, s, _, entry, ms, r, hAssembled, hStates, hAt, hOrigin, hEntry, hSecond, hSpells, hUses, hMeans, hr, hLoad⟩

set_option maxRecDepth 10000 in
/-- The statement `.byte 1,*` starts at 16, but its counter is 17. -/
theorem counter_behind_first_item :
    ∃ p entry r blocks,
      (Mos65.family.assemble { features := {.base} } {} ".org 16\n.byte 1,*\n").result = .ok p ∧
      p.listing[1]? = some entry ∧ p.regions[entry.region]? = some r ∧
      r.load 0 + Value.ofNat entry.offset = 16 ∧
      p.linkSections 0 = .ok blocks ∧ blocks.map Block.bytes = [[1, 17]] := by
  have hProgram : (Mos65.family.assemble { features := {.base} } {} ".org 16\n.byte 1,*\n").result.toOption.any
      (fun p => (p.linkSections 0).toOption.any (fun blocks => blocks.map Block.bytes == [[1, 17]]) &&
        p.listing[1]?.any fun entry => p.regions[entry.region]?.any fun r =>
          r.load 0 + Value.ofNat entry.offset == 16) = true := by decide +kernel
  obtain ⟨p, hp, hCheck⟩ := (Option.any_eq_true _ _).mp hProgram
  obtain ⟨hLink, hEntry⟩ := Bool.and_eq_true_iff.mp hCheck
  obtain ⟨blocks, hBlocks, hBytes⟩ := (Option.any_eq_true _ _).mp hLink
  obtain ⟨entry, hEntry, hRegion⟩ := (Option.any_eq_true _ _).mp hEntry
  obtain ⟨r, hr, hAddress⟩ := (Option.any_eq_true _ _).mp hRegion
  exact ⟨p, entry, r, blocks, Action.ok_of_toOption hp, hEntry, hr, eq_of_beq hAddress,
    Action.ok_of_toOption hBlocks, eq_of_beq hBytes⟩

end Family

end CrossAsm
