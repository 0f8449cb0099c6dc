import CrossAsm.Proofs.Expr.Likeness

/-!
# CrossAsm — the symbols of an expression

An expression mentions names in a set alone just if it corresponds to itself where only these names do. So whatever is
made of such expressions mentions no other names either.
-/

namespace CrossAsm

namespace Expr

variable {N N' : String → Prop} {e : Expr}

/-- All symbols of the expression are in `N`. -/
def SymbolsIn (N : String → Prop) (e : Expr) : Prop := ∀ name ∈ e.symbols, N name

namespace SymbolsIn

theorem mono (h : e.SymbolsIn N) (hN : ∀ name, N name → N' name) : e.SymbolsIn N' :=
  fun name hName => hN name (h name hName)

theorem const (v : Value) (s : Span) : (Expr.const v s).SymbolsIn N := by
  intro name hName
  cases hName

theorem counter (offset : Value) (s : Span) : (Expr.counter offset s).SymbolsIn N := by
  intro name hName
  cases hName

theorem symbol {name : String} (h : N name) (s : Span) : (Expr.symbol name s).SymbolsIn N := by
  intro name' hName
  rw [List.mem_singleton.mp hName]
  exact h

end SymbolsIn

theorem like_within_iff : e.Like (.within N) e ↔ e.SymbolsIn N := by
  constructor
  · intro h
    induction e with
    | const v s => exact .const v s
    | counter offset s => exact .counter offset s
    | symbol name s =>
      cases h with
      | symbol hName _ => exact .symbol hName.2 s
    | unary op operand s ih =>
      cases h with
      | unary _ h _ => exact ih h
    | binary op lhs rhs s ih ih' =>
      cases h with
      | binary _ h h' _ => exact List.forall_mem_append.mpr ⟨ih h, ih' h'⟩
    | paren inner s ih =>
      cases h with
      | paren h _ => exact ih h
  · intro h
    induction e with
    | const v s => exact .const v trivial
    | counter offset s => exact .counter (L := .within N) trivial offset trivial
    | symbol name s => exact .symbol ⟨rfl, h name (List.mem_singleton_self name)⟩ trivial
    | unary op operand s ih => exact .unary op (ih h) trivial
    | binary op lhs rhs s ih ih' =>
      obtain ⟨hLhs, hRhs⟩ := List.forall_mem_append.mp h
      exact .binary op (ih hLhs) (ih' hRhs) trivial
    | paren inner s ih => exact .paren (ih h) trivial

theorem SymbolsIn.mask (h : e.SymbolsIn N) (bits : Nat) : (e.mask bits).SymbolsIn N :=
  like_within_iff.mp ((like_within_iff.mpr h).mask bits)

end Expr

/-- A position in the output mentions nothing. -/
theorem Section.symbolsIn_positionExpr (s : Section) (span : Span) (N : String → Prop) :
    (s.positionExpr span).SymbolsIn N := by
  unfold positionExpr
  split
  · exact .const _ span
  · exact .counter _ span

end CrossAsm
