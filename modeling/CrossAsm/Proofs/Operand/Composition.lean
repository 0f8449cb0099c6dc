import CrossAsm.Proofs.Expr.Recognition
import CrossAsm.Proofs.Reading.Operand

/-!
# CrossAsm — the expressions of operands

No expression of an operand gets lost: the tokens of an operand are phrases and single tokens between them, and of the
value of each phrase something is kept.

* `Scans` — tokens that are read one by one, or as expressions. Of the former none stands for the program counter.
* `Cursor.Spells` — the same of phrases, which `Scans.spells` finds.
* `Composed` — tokens of which all expressions are kept.
* `Family.Shipped.composed_resolveOperands` — so the operands of an instruction keep all expressions that they are
  written with.
-/

namespace CrossAsm

-- --------
-- Tokens and expressions
-- --------

/-- From `c` to `c'` the tokens are expressions, `es` from left to right, and single tokens between them that do not
stand for the program counter. -/
inductive Scans (scope : Scope) : Cursor → List Expr → Cursor → Prop
  | refl (c : Cursor) : Scans scope c [] c
  | token {c c' : Cursor} {es : List Expr} (h : c.peek.lexeme.isCounter = false) (rest : Scans scope c.next es c') :
      Scans scope c es c'
  | expr {c mid c' : Cursor} {e : Expr} {es : List Expr} (h : (Expr.parse scope 0 c).result = some (e, mid))
      (rest : Scans scope mid es c') : Scans scope c (e :: es) c'

theorem Scans.trans {scope : Scope} {c mid c' : Cursor} {es es' : List Expr} (h : Scans scope c es mid)
    (h' : Scans scope mid es' c') : Scans scope c (es ++ es') c' := by
  induction h with
  | refl c => exact h'
  | token hToken _ ih => exact .token hToken (ih h')
  | expr hParse _ ih => exact .expr hParse (ih h')

/-- The tokens are phrases, `xs` from left to right, and single tokens between them that do not stand for the program
counter. -/
inductive Phrase.Spell : List Phrase → List Token → Prop
  | nil : Spell [] []
  | token {t : Token} {xs : List Phrase} {ts : List Token} (h : t.lexeme.isCounter = false) (rest : Spell xs ts) :
      Spell xs (t :: ts)
  | phrase {x : Phrase} {xs : List Phrase} {us ts : List Token} (hWritten : x.WrittenAs us) (hFits : x.fits 0 = true)
      (rest : Spell xs ts) : Spell (x :: xs) (us ++ ts)

theorem Phrase.Spell.append {xs ys : List Phrase} {ts us : List Token} (h : Spell xs ts) (h' : Spell ys us) :
    Spell (xs ++ ys) (ts ++ us) := by
  induction h with
  | nil => exact h'
  | token hToken _ ih => exact .token hToken ih
  | @phrase x xs us' ts hWritten hFits _ ih =>
    rw [List.append_assoc]
    exact .phrase hWritten hFits ih

namespace Cursor

/-- The tokens from `c` to `c'` spell the phrases `xs`. -/
def Spells (c : Cursor) (xs : List Phrase) (c' : Cursor) : Prop := ∃ ts, c.rest = ts ++ c'.rest ∧ Phrase.Spell xs ts

namespace Spells

variable {c mid c' : Cursor} {xs ys : List Phrase}

theorem refl (c : Cursor) : c.Spells [] c := ⟨[], rfl, .nil⟩

theorem trans (h : c.Spells xs mid) (h' : mid.Spells ys c') : c.Spells (xs ++ ys) c' := by
  obtain ⟨ts, hRest, hSpell⟩ := h
  obtain ⟨us, hRest', hSpell'⟩ := h'
  exact ⟨ts ++ us, by rw [hRest, hRest', List.append_assoc], hSpell.append hSpell'⟩

theorem next (h : c.peek.lexeme.isCounter = false) : c.Spells [] c.next := by
  obtain ⟨tokens, stop⟩ := c
  cases tokens with
  | nil => exact refl _
  | cons t rest => exact ⟨[t], rfl, .token h .nil⟩

theorem of_readAs {scope : Scope} {e : Expr} {x : Phrase} {ts : List Token} (h : Expr.ReadAs scope 0 c c' e x ts) :
    c.Spells [x] c' := by
  have hSpell : Phrase.Spell [x] (ts ++ []) := .phrase h.written h.fits .nil
  rw [List.append_nil] at hSpell
  exact ⟨ts, h.rest, hSpell⟩

end Spells

end Cursor

/-- Expressions are read from phrases. -/
theorem Scans.spells {scope : Scope} {c c' : Cursor} {es : List Expr} (h : Scans scope c es c') :
    ∃ xs, c.Spells xs c' ∧ ∀ x ∈ xs, ∃ e ∈ es, x.folded scope = some e := by
  induction h with
  | refl c => exact ⟨[], .refl c, fun _ hMem => absurd hMem List.not_mem_nil⟩
  | token hToken _ ih =>
    obtain ⟨xs, hSpells, hFolded⟩ := ih
    exact ⟨xs, (Cursor.Spells.next hToken).trans hSpells, hFolded⟩
  | expr hParse _ ih =>
    obtain ⟨xs, hSpells, hFolded⟩ := ih
    obtain ⟨x, us, hRead⟩ := Expr.readAs_of_parse hParse
    refine ⟨x :: xs, (Cursor.Spells.of_readAs hRead).trans hSpells, fun y hy => ?_⟩
    rcases List.mem_cons.mp hy with rfl | hy
    · exact ⟨_, List.mem_cons_self, hRead.folded⟩
    · obtain ⟨e, he, hValue⟩ := hFolded y hy
      exact ⟨e, List.mem_cons_of_mem _ he, hValue⟩

-- --------
-- What is kept
-- --------

/-- From `c` to `c'` the tokens are read one by one or as expressions, and of each expression one of the `vs` is
kept. -/
def Composed (scope : Scope) (page : Value) (c : Cursor) (vs : List Expr) (c' : Cursor) : Prop :=
  ∃ es, Scans scope c es c' ∧ ∀ e ∈ es, ∃ v ∈ vs, e.Adapted page v

namespace Composed

variable {scope : Scope} {page : Value} {c mid c' : Cursor} {vs vs' : List Expr}

theorem refl (c : Cursor) (vs : List Expr) : Composed scope page c vs c :=
  ⟨[], .refl c, fun _ hMem => absurd hMem List.not_mem_nil⟩

theorem adapt (h : Composed scope page c vs c') (hAdapted : ∀ v ∈ vs, ∃ v' ∈ vs', v.Adapted page v') :
    Composed scope page c vs' c' := by
  obtain ⟨es, hScans, hKept⟩ := h
  refine ⟨es, hScans, fun e he => ?_⟩
  obtain ⟨v, hv, hValue⟩ := hKept e he
  obtain ⟨v', hv', hValue'⟩ := hAdapted v hv
  exact ⟨v', hv', hValue.trans hValue'⟩

theorem mono (h : Composed scope page c vs c') (hMore : ∀ v ∈ vs, v ∈ vs') : Composed scope page c vs' c' :=
  h.adapt fun v hv => ⟨v, hMore v hv, .refl v⟩

theorem trans (h : Composed scope page c vs mid) (h' : Composed scope page mid vs c') :
    Composed scope page c vs c' := by
  obtain ⟨es, hScans, hKept⟩ := h
  obtain ⟨es', hScans', hKept'⟩ := h'
  refine ⟨es ++ es', hScans.trans hScans', fun e he => ?_⟩
  rcases List.mem_append.mp he with he | he
  · exact hKept e he
  · exact hKept' e he

theorem next (h : c.peek.lexeme.isCounter = false) (vs : List Expr) : Composed scope page c vs c.next :=
  ⟨[], .token h (.refl _), fun _ hMem => absurd hMem List.not_mem_nil⟩

theorem expr {e : Expr} (h : (Expr.parse scope 0 c).result = some (e, c')) (vs : List Expr) :
    Composed scope page c (e :: vs) c' := by
  refine ⟨[e], .expr h (.refl _), fun e' he' => ?_⟩
  rw [List.mem_singleton.mp he']
  exact ⟨e, List.mem_cons_self, .refl e⟩

end Composed

/-- Reading an operand goes on like this. -/
theorem Trail.composed {scope : Scope} {page : Value} (first : Cursor) :
    Trail scope page (Composed scope page first) where
  token {vs _} h hSingle := h.trans (.next (Lexeme.isSingle_iff.mp hSingle).2 vs)
  expr {vs _ e _} h hRun := (h.mono fun _ hv => List.mem_cons_of_mem e hv).trans (.expr hRun vs)
  keep h hKept := h.adapt hKept

namespace Family.Shipped

variable {Mnemonic Mode Feature : Type} {F : Family Mnemonic Mode Feature} [DecidableEq Mode]

/-- **The operands of an instruction keep all its expressions.** -/
theorem composed_resolveOperands [Flag Mode] (hF : F.Shipped) {machine : Machine Feature} {scope : Scope}
    {m : Mnemonic} {implied : Option Nat} {c c' : Cursor} {first second : Operand Mode}
    (h : Encoder.resolveOperands F machine scope m implied c = .ok (first, second, c')) :
    Composed scope machine.baseAddress c (first.values ++ second.values) c' := by
  have hResolve {request : Request Mode} {c c' : Cursor} {o : Operand Mode}
      (hRun : F.resolve scope machine request c = .done o c') : Composed scope machine.baseAddress c o.values c' :=
    hF.traces_resolve scope machine request c _ (.composed c) o c' (.refl c []) (by rw [hRun]; rfl)
  obtain ⟨mid, hFirst, hRest⟩ := Encoder.resolves_of_resolveOperands h
  have hOne := (hResolve hFirst).mono fun v hv => List.mem_append_left second.values hv
  rcases hRest with ⟨-, rfl⟩ | ⟨allowed, t, mid', -, hComma, hSecond⟩
  · exact hOne
  · obtain ⟨hLexeme, -, rfl⟩ := Cursor.eat?_mark_eq_some.mp hComma
    have hToken : Composed scope machine.baseAddress mid (first.values ++ second.values) mid.next :=
      .next (by rw [hLexeme]; rfl) _
    exact (hOne.trans hToken).trans ((hResolve hSecond).mono fun v hv => List.mem_append_right first.values hv)

end Family.Shipped

end CrossAsm
