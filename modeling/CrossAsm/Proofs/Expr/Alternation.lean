import CrossAsm.Proofs.Expr.Recognition
import Mathlib.Data.List.Chain

/-!
# CrossAsm — operands and operators in turn

The tokenizer takes `%` for the remainder operator where the token before it can end a value, and otherwise for the
start of a binary number. An expression has operands and operators in turn, so that inside it the tokenizer is right
about numbers. It is right about the operator too, unless that stands behind the program counter `*`.

* `Token.InTurn` — tokens side by side about which the tokenizer and the parser agree.
* `Expr.Alternating` — the tokens of an expression; operators and parentheses put such lists together.
* `Expr.alternating_of_parse` — whatever the parser takes for an expression is such a list.
-/

namespace CrossAsm

/-- An expression ends with the end of a value, or with the program counter `*`. -/
theorem Lexeme.endsValue_of_endsExpr {l : Lexeme} (h : l.endsExpr = true) : l.endsValue = true ∨ l = .mark .star := by
  cases l with
  | identifier _ | number _ => exact .inl rfl
  | mark m => cases m <;> cases h <;> first | exact .inl rfl | exact .inr rfl
  | _ => cases h

/-- Side by side, `u` is a number only where no value has ended, and `%` only where one has. -/
structure Token.InTurn (t u : Token) : Prop where
  operand  : ∀ v, u.lexeme = .number v → t.lexeme.endsValue = false
  operator : u.lexeme = .mark .percent → t.lexeme.endsValue = true ∨ t.lexeme = .mark .star

namespace Expr

/-- Tokens in turn, from the start of an operand to the end of one. -/
structure Alternating (tokens : List Token) : Prop where
  inTurn : tokens.IsChain Token.InTurn
  first  : ∀ t ∈ tokens.head?, t.lexeme ≠ .mark .percent
  last   : ∃ t ∈ tokens.getLast?, t.lexeme.endsExpr = true

-- --------
-- Putting tokens together
-- --------

namespace Alternating

variable {tokens others : List Token} {t u : Token}

theorem single (h : t.lexeme.endsExpr = true) : Alternating [t] := by
  refine ⟨.singleton t, ?_, t, rfl, h⟩
  intro u hu hPercent
  obtain rfl := Option.some.inj hu
  rw [hPercent] at h
  cases h

/-- A token that ends no value can stand in front. -/
theorem cons (h : Alternating tokens) (hOpens : t.lexeme.endsValue = false) (hPercent : t.lexeme ≠ .mark .percent) :
    Alternating (t :: tokens) := by
  refine ⟨h.inTurn.cons fun u hu => ⟨fun _ _ => hOpens, fun hu' => absurd hu' (h.first u hu)⟩, ?_, ?_⟩
  · intro u hu
    obtain rfl := Option.some.inj hu
    exact hPercent
  · obtain ⟨u, hu, hEnds⟩ := h.last
    refine ⟨u, ?_, hEnds⟩
    rw [Option.mem_def, List.getLast?_cons, Option.mem_def.mp hu]
    rfl

/-- Behind the end of a value a token other than a number can stand. -/
theorem inTurn_append (h : Alternating tokens) (hOthers : others.IsChain Token.InTurn)
    (hNumber : ∀ u ∈ others.head?, ∀ v, u.lexeme ≠ .number v) : (tokens ++ others).IsChain Token.InTurn := by
  refine h.inTurn.append hOthers fun t ht u hu => ⟨fun v hv => absurd hv (hNumber u hu v), fun _ => ?_⟩
  obtain ⟨t', ht', hEnds⟩ := h.last
  obtain rfl := Option.some.inj (ht'.symm.trans ht)
  exact Lexeme.endsValue_of_endsExpr hEnds

theorem first_append (h : Alternating tokens) : ∀ t ∈ (tokens ++ others).head?, t.lexeme ≠ .mark .percent := by
  obtain ⟨t, ht, -⟩ := h.last
  obtain ⟨u, us, rfl⟩ := List.exists_cons_of_ne_nil (List.ne_nil_of_mem (List.mem_of_getLast? ht))
  exact h.first

/-- An operator between operands. -/
theorem binary (h : Alternating tokens) {op : BinaryOp} (hOp : BinaryOp.ofLexeme? t.lexeme = some op)
    (hOthers : Alternating others) : Alternating (tokens ++ t :: others) := by
  have hOpens : t.lexeme.endsValue = false ∧ ∀ v, t.lexeme ≠ .number v := by
    obtain ⟨lexeme, span⟩ := t
    cases lexeme with
    | mark m => cases m <;> cases hOp <;> exact ⟨rfl, fun _ hv => by cases hv⟩
    | _ => cases hOp
  refine ⟨h.inTurn_append (hOthers.inTurn.cons fun u hu => ?_) ?_, h.first_append, ?_⟩
  · exact ⟨fun _ _ => hOpens.1, fun hu' => absurd hu' (hOthers.first u hu)⟩
  · intro u hu
    obtain rfl := Option.some.inj hu
    exact hOpens.2
  · obtain ⟨u, hu, hEnds⟩ := hOthers.last
    refine ⟨u, ?_, hEnds⟩
    rw [Option.mem_def, List.getLast?_append, List.getLast?_cons, Option.mem_def.mp hu]
    rfl

/-- Parentheses around an expression. -/
theorem paren (h : Alternating tokens) (hOpen : t.lexeme = .mark .openParen) (hClose : u.lexeme = .mark .closeParen) :
    Alternating (t :: (tokens ++ [u])) := by
  refine cons ⟨h.inTurn_append (.singleton u) ?_, h.first_append, u, List.getLast?_concat, ?_⟩ ?_ ?_
  · intro u' hu' v hv
    obtain rfl := Option.some.inj hu'
    cases hClose.symm.trans hv
  · rw [hClose]
    rfl
  · rw [hOpen]
    rfl
  · intro hPercent
    cases hOpen.symm.trans hPercent

end Alternating

-- --------
-- What the parser reads
-- --------

/-- The tokens of a phrase are in turn. A sign in front of an operand ends no value. -/
theorem alternating_of_writtenAs {x : Phrase} {ts : List Token} (h : x.WrittenAs ts) : Alternating ts := by
  induction h with
  | number | symbol | star | dollar => exact .single rfl
  | unary op s _ ih =>
    have hSign : (Lexeme.mark op.mark).endsValue = false ∧ Lexeme.mark op.mark ≠ .mark .percent := by
      cases op <;> decide
    exact ih.cons hSign.1 hSign.2
  | binary op s _ _ ihLeft ihRight => exact ihLeft.binary op.ofLexeme?_mark ihRight
  | paren opening closing _ ih => exact ih.paren rfl rfl
  | plus s _ _ ih =>
    have hPlus : Lexeme.mark .plus ≠ .mark .percent := by decide
    exact ih.cons rfl hPlus

/-- **An expression has operands and operators in turn.** -/
theorem alternating_of_parse {scope : Scope} {least : Nat} {c c' : Cursor} {e : Expr}
    (h : (parse scope least c).result = some (e, c')) : ∃ tokens, c.rest = tokens ++ c'.rest ∧ Alternating tokens := by
  obtain ⟨x, ts, hRead⟩ := readAs_of_parse h
  exact ⟨ts, hRead.rest, alternating_of_writtenAs hRead.written⟩

end Expr

end CrossAsm
