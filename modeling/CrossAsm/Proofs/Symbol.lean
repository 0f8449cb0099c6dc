import CrossAsm.Section

/-!
# CrossAsm — symbols that are defined once

A definition comes behind all others and is never replaced, so a name keeps its meaning from its definition
on. `evaluate_of_position` gives the value of a name that was defined as a position in the output.
-/

namespace CrossAsm

/-- The position of the output is counted from the origin, or from the base where there is none. -/
theorem Section.evaluate_positionExpr (s : Section) (span : Span) (base : Value)
    (look : String → Span → Except Diagnostic Value) :
    (s.positionExpr span).evaluate base look = .ok (s.origin.getD base + Value.ofNat s.size) := by
  unfold Section.positionExpr
  cases s.origin with
  | none => rfl
  | some origin => rfl

theorem Section.value?_positionExpr (s : Section) (span : Span) :
    (s.positionExpr span).value? = s.origin.map (· + Value.ofNat s.size) := by
  unfold Section.positionExpr
  cases s.origin <;> rfl

namespace SymbolTable

variable {t t' : SymbolTable} {name : String} {value : Expr} {span : Span}

/-- A new definition comes behind all others. -/
theorem symbols_of_define (h : t.define name value span = .ok t') :
    t.find? name = none ∧ t'.symbols = t.symbols ++ [⟨name, value, span⟩] := by
  unfold define at h
  split at h
  · cases h
  · next hNone =>
    cases h
    exact ⟨hNone, rfl⟩

theorem exists_define (h : t.find? name = none) (value : Expr) (span : Span) :
    ∃ t', t.define name value span = .ok t' := by
  unfold define
  rw [h]
  exact ⟨_, rfl⟩

theorem prefix_of_define (h : t.define name value span = .ok t') : t.symbols <+: t'.symbols := by
  rw [(symbols_of_define h).2]
  exact List.prefix_append _ _

theorem find?_of_define (h : t.define name value span = .ok t') :
    t'.find? name = some ⟨name, value, span⟩ := by
  obtain ⟨hNone, hSymbols⟩ := symbols_of_define h
  unfold find? at hNone ⊢
  rw [hSymbols, List.find?_append, hNone]
  simp

/-- The first definition of a name counts, so it stays what it is. -/
theorem find?_mono (h : t.symbols <+: t'.symbols) {s : Symbol} (hFind : t.find? name = some s) :
    t'.find? name = some s := by
  obtain ⟨more, hMore⟩ := h
  unfold find? at hFind ⊢
  rw [← hMore, List.find?_append, hFind]
  rfl

/-- The value of a name that was defined as a position in the output. -/
theorem evaluate_of_position {s : Section} {place : Span}
    (h : t.find? name = some ⟨name, s.positionExpr place, span⟩) (base : Value) (usage : Span) :
    t.evaluate base (.symbol name usage) = .ok (s.origin.getD base + Value.ofNat s.size) := by
  show t.valueOf base t.symbols name usage = _
  unfold valueOf
  split
  · next x hFind =>
    obtain rfl := Option.some.inj (h.symm.trans hFind)
    exact s.evaluate_positionExpr place base _
  · next hNone =>
    rw [show t.find? name = none from hNone] at h
    cases h

end SymbolTable

end CrossAsm
