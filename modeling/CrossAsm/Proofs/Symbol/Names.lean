import CrossAsm.Proofs.Expr.Symbols
import CrossAsm.Proofs.Symbol.Fresh
import CrossAsm.Proofs.Symbol.Resolution

/-!
# CrossAsm — the names in a symbol table

The names that a table defines, and the names that its definitions mention. Every name is defined once, and as long
as definitions come from the source, they mention names of the source only (`Sound`).

* `symbolsIn_of_reaches` — what can be reached through definitions is mentioned in one of them.
* `Sound.mem_of_unresolved` — a name that cannot be resolved is one of the source.
-/

namespace CrossAsm.SymbolTable

variable {t t' : SymbolTable} {N M : String → Prop} {name : String} {value : Expr} {span : Span}

/-- The names that are defined, in the order of their definitions. -/
def names (t : SymbolTable) : List String := t.symbols.map Symbol.name

theorem find?_eq_none_iff : t.find? name = none ↔ name ∉ t.names := by
  unfold find? names
  rw [List.find?_eq_none, List.mem_map]
  constructor
  · rintro h ⟨x, hx, rfl⟩
    exact h x hx (beq_self_eq_true _)
  · intro h x hx hName
    exact h ⟨x, hx, beq_iff_eq.mp hName⟩

theorem names_of_define (h : t.define name value span = .ok t') : t'.names = t.names ++ [name] := by
  unfold names
  rw [(symbols_of_define h).2, List.map_append]
  rfl

/-- The name is in `N` or has a definition. -/
def Known (N : String → Prop) (t : SymbolTable) (name : String) : Prop := N name ∨ name ∈ t.names

theorem Known.mono (h : t.symbols <+: t'.symbols) (hName : t.Known N name) : t'.Known N name :=
  hName.imp_right fun hMem => (h.map Symbol.name).subset hMem

/-- Labels are made up in their order, every name is defined once, and definitions mention names in `N` only. -/
structure Sound (N : String → Prop) (t : SymbolTable) : Prop where
  fresh    : t.Fresh
  distinct : t.names.Nodup
  values   : ∀ x ∈ t.symbols, x.value.SymbolsIn N

namespace Sound

theorem empty (N : String → Prop) : ({} : SymbolTable).Sound N := by
  refine ⟨?_, List.nodup_nil, ?_⟩
  · intro x hx
    cases hx
  · intro x hx
    cases hx

theorem mint (h : t.Sound N) : t.mint.Sound N := ⟨(Grows.mint t).fresh h.fresh, h.distinct, h.values⟩

theorem define (h : t.Sound N) (hName : t.HandedOut name) (hValue : value.SymbolsIn N)
    (hDefine : t.define name value span = .ok t') : t'.Sound N := by
  obtain ⟨hNew, hSymbols⟩ := symbols_of_define hDefine
  refine ⟨(Grows.define hName hDefine).fresh h.fresh, ?_, ?_⟩
  · rw [names_of_define hDefine, List.nodup_append]
    refine ⟨h.distinct, List.pairwise_singleton _ name, ?_⟩
    rintro other hOther _ hLast rfl
    rw [List.mem_singleton.mp hLast] at hOther
    exact find?_eq_none_iff.mp hNew hOther
  · rw [hSymbols]
    exact List.forall_mem_append.mpr ⟨h.values, List.forall_mem_singleton.mpr hValue⟩

end Sound

-- --------
-- Resolution
-- --------

/-- What is needed for a value mentions what is mentioned in front of it or in a definition. -/
theorem symbolsIn_of_reaches (hValues : ∀ x ∈ t.symbols, x.value.SymbolsIn M) {e e' : Expr} (he : e.SymbolsIn M)
    (h : t.Reaches e e') : e'.SymbolsIn M := by
  induction h with
  | refl => exact he
  | tail _ hNeeds ih =>
    cases hNeeds with
    | definition s hFind => exact hValues _ (List.mem_of_find?_eq_some hFind)
    | inner e s => exact ih
    | operand op e s => exact ih
    | lhs op l r s => exact fun name hName => ih name (List.mem_append_left _ hName)
    | rhs op l r s => exact fun name hName => ih name (List.mem_append_right _ hName)

/-- A failure of an evaluation is explained. -/
theorem explains_of_evaluate_error {base : Value} {e : Expr} {d : Diagnostic} (h : t.evaluate base e = .error d) :
    Explains t base e d := by
  refine explains_of_evaluate ?_ ?_ h
  · intro name usage w hName
    exact evaluates_of_valueOf t.shows_symbols hName
  · intro name usage d' _ hName
    refine explains_of_valueOf t.shows_symbols ?_ hName
    intro other x hx hNone
    rw [show t.find? other = none from hNone] at hx
    cases hx

/-- **A name that cannot be resolved** has no definition, so it is in `N`. -/
theorem Sound.mem_of_unresolved (h : t.Sound N) {base : Value} {e : Expr} {usage : Span}
    (he : e.SymbolsIn (t.Known N))
    (hFail : t.evaluate base e = .error (.unresolvedSymbol name usage)) : N name := by
  cases explains_of_evaluate_error hFail with
  | unresolved hReached hUndefined =>
    have hValues : ∀ x ∈ t.symbols, x.value.SymbolsIn (t.Known N) :=
      fun x hx => (h.values x hx).mono fun _ => .inl
    rcases symbolsIn_of_reaches hValues he hReached name (List.mem_singleton_self name) with hName | hName
    · exact hName
    · exact absurd hName (find?_eq_none_iff.mp hUndefined)

end CrossAsm.SymbolTable
