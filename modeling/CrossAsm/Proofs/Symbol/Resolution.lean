import Mathlib.Logic.Relation
import CrossAsm.Proofs.Symbol

/-!
# CrossAsm — resolving symbols

Symbols are resolved through their definitions, which may mention other symbols, and themselves. Whether an
expression has a value is said here without any order of evaluation: `Evaluates` is a finite derivation in
which a symbol has the value of its definition. Resolution takes the definitions out of sight that it is
working on, and finds every value that has a derivation all the same.

* `Evaluates` — the derivations, and `Needs` — what a derivation for an expression cannot do without.
* `evaluates_of_valueOf` — a value that was found has a derivation.
* `explains_of_valueOf` — a failure points at something that no derivation gets around: a symbol without a
  definition, a symbol that needs itself, or a division by zero.
* `symbols_resolve_by_definition` — so resolution finds exactly the values that have a derivation.
-/

namespace CrossAsm.SymbolTable

-- --------
-- Derivations
-- --------

/-- The expression has a value: a symbol has the value of its definition. -/
inductive Evaluates (t : SymbolTable) (base : Value) : Expr → Value → Prop
  | const (v : Value) (s : Span) : Evaluates t base (.const v s) v
  | counter (offset : Value) (s : Span) : Evaluates t base (.counter offset s) (base + offset)
  | symbol {name : String} {x : Symbol} {v : Value} (s : Span) (find : t.find? name = some x)
      (value : Evaluates t base x.value v) : Evaluates t base (.symbol name s) v
  | paren {e : Expr} {v : Value} (s : Span) (inner : Evaluates t base e v) :
      Evaluates t base (.paren e s) v
  | unary {e : Expr} {a : Value} (op : UnaryOp) (s : Span) (operand : Evaluates t base e a) :
      Evaluates t base (.unary op e s) (op.apply a)
  | binary {l r : Expr} {a b v : Value} {op : BinaryOp} (s : Span) (lhs : Evaluates t base l a)
      (rhs : Evaluates t base r b) (apply : op.apply a b = some v) :
      Evaluates t base (.binary op l r s) v

/-- What an expression needs to have a value: its operands, and the definition of a symbol. -/
inductive Needs (t : SymbolTable) : Expr → Expr → Prop
  | definition {name : String} {x : Symbol} (s : Span) (find : t.find? name = some x) :
      Needs t (.symbol name s) x.value
  | inner (e : Expr) (s : Span) : Needs t (.paren e s) e
  | operand (op : UnaryOp) (e : Expr) (s : Span) : Needs t (.unary op e s) e
  | lhs (op : BinaryOp) (l r : Expr) (s : Span) : Needs t (.binary op l r s) l
  | rhs (op : BinaryOp) (l r : Expr) (s : Span) : Needs t (.binary op l r s) r

/-- The expressions that have to be evaluated on the way, through definitions of symbols too. -/
def Reaches (t : SymbolTable) : Expr → Expr → Prop := Relation.ReflTransGen t.Needs

/-- Why an expression has no value, as a diagnostic says it. -/
inductive Explains (t : SymbolTable) (base : Value) (e : Expr) : Diagnostic → Prop
  /-- A symbol that is reached has no definition. -/
  | unresolved {name : String} {usage : Span} (reached : t.Reaches e (.symbol name usage))
      (undefined : t.find? name = none) : Explains t base e (.unresolvedSymbol name usage)
  /-- The definition of a symbol that is reached reaches the symbol again. -/
  | recursive {name : String} {usage : Span} {x : Symbol} (reached : t.Reaches e (.symbol name usage))
      (find : t.find? name = some x) (again : t.Reaches x.value (.symbol name usage)) :
      Explains t base e (.recursiveSymbol name x.definition)
  /-- The divisor of a division or remainder that is reached is zero. -/
  | division {op : BinaryOp} {l r : Expr} {s : Span} (reached : t.Reaches e (.binary op l r s))
      (fallible : op.isFallible = true) (zero : Evaluates t base r 0) :
      Explains t base e (.divisionByZero r.span)

variable {t : SymbolTable} {base v w : Value} {e e' : Expr} {d : Diagnostic}

namespace Evaluates

/-- There is at most one value. -/
theorem det (hv : Evaluates t base e v) (hw : Evaluates t base e w) : v = w := by
  induction hv generalizing w with
  | const v s =>
    cases hw
    rfl
  | counter offset s =>
    cases hw
    rfl
  | symbol s find value ih =>
    cases hw with
    | symbol _ find' value' =>
      obtain rfl := Option.some.inj (find.symm.trans find')
      exact ih value'
  | paren s inner ih =>
    cases hw with
    | paren _ inner' => exact ih inner'
  | unary op s operand ih =>
    cases hw with
    | unary _ _ operand' => rw [ih operand']
  | binary s lhs rhs apply ihl ihr =>
    cases hw with
    | binary _ lhs' rhs' apply' =>
      rw [ihl lhs', ihr rhs', apply'] at apply
      exact (Option.some.inj apply).symm

/-- A derivation has derivations for everything that is needed. -/
theorem of_needs (h : Evaluates t base e v) (hNeeds : t.Needs e e') : ∃ w, Evaluates t base e' w := by
  cases hNeeds with
  | definition s find =>
    cases h with
    | symbol _ find' value =>
      obtain rfl := Option.some.inj (find.symm.trans find')
      exact ⟨_, value⟩
  | inner e s =>
    cases h with
    | paren _ inner => exact ⟨_, inner⟩
  | operand op e s =>
    cases h with
    | unary _ _ operand => exact ⟨_, operand⟩
  | lhs op l r s =>
    cases h with
    | binary _ lhs _ _ => exact ⟨_, lhs⟩
  | rhs op l r s =>
    cases h with
    | binary _ _ rhs _ => exact ⟨_, rhs⟩

theorem of_reaches (h : Evaluates t base e v) (hReaches : t.Reaches e e') :
    ∃ w, Evaluates t base e' w := by
  induction hReaches with
  | refl => exact ⟨v, h⟩
  | tail _ hNeeds ih =>
    obtain ⟨w, hw⟩ := ih
    exact hw.of_needs hNeeds

/-- Derivations are finite, so what is needed again and again comes to an end. -/
theorem acc (h : Evaluates t base e v) : Acc (fun a b => t.Needs b a) e := by
  induction h with
  | const v s => exact ⟨_, fun _ hNeeds => nomatch hNeeds⟩
  | counter offset s => exact ⟨_, fun _ hNeeds => nomatch hNeeds⟩
  | symbol s find value ih =>
    refine ⟨_, fun e' hNeeds => ?_⟩
    cases hNeeds with
    | definition _ find' =>
      obtain rfl := Option.some.inj (find.symm.trans find')
      exact ih
  | paren s inner ih =>
    refine ⟨_, fun e' hNeeds => ?_⟩
    cases hNeeds
    exact ih
  | unary op s operand ih =>
    refine ⟨_, fun e' hNeeds => ?_⟩
    cases hNeeds
    exact ih
  | binary s lhs rhs apply ihl ihr =>
    refine ⟨_, fun e' hNeeds => ?_⟩
    cases hNeeds with
    | lhs => exact ihl
    | rhs => exact ihr

/-- Nothing that has a derivation needs itself. -/
theorem not_cyclic (h : Evaluates t base e v) : ¬ Relation.TransGen t.Needs e e := by
  have hAcc := h.acc
  clear h
  induction hAcc with
  | intro e _ ih =>
    intro hCycle
    obtain ⟨e', hNeeds, hBack⟩ := Relation.TransGen.head'_iff.mp hCycle
    exact ih e' hNeeds (Relation.TransGen.tail' hBack hNeeds)

end Evaluates

namespace Explains

/-- What explains the failure of a part explains that of the whole. -/
theorem of_reaches (hReaches : t.Reaches e e') (h : Explains t base e' d) : Explains t base e d := by
  cases h with
  | unresolved reached undefined => exact .unresolved (hReaches.trans reached) undefined
  | recursive reached find again => exact .recursive (hReaches.trans reached) find again
  | division reached fallible zero => exact .division (hReaches.trans reached) fallible zero

/-- An expression whose failure is explained has no derivation. -/
theorem not_evaluates (h : Explains t base e d) : ¬ Evaluates t base e v := by
  intro hv
  cases h with
  | unresolved reached undefined =>
    obtain ⟨w, hw⟩ := hv.of_reaches reached
    cases hw with
    | symbol _ find _ =>
      rw [undefined] at find
      cases find
  | recursive reached find again =>
    obtain ⟨w, hw⟩ := hv.of_reaches reached
    exact hw.not_cyclic (Relation.TransGen.head' (.definition _ find) again)
  | @division op l r s reached fallible zero =>
    obtain ⟨w, hw⟩ := hv.of_reaches reached
    cases hw with
    | binary _ _ rhs apply =>
      rw [rhs.det zero, BinaryOp.apply_eq_none_iff.mpr ⟨fallible, rfl⟩] at apply
      cases apply

end Explains

-- --------
-- One expression
-- --------

section Expression

variable {look : String → Span → Except Diagnostic Value}

/-- A value that was computed has a derivation, if that is so of the symbols. -/
theorem evaluates_of_evaluate
    (hLook : ∀ name usage v, look name usage = .ok v → Evaluates t base (.symbol name usage) v)
    (h : e.evaluate base look = .ok v) : Evaluates t base e v := by
  induction e generalizing v with
  | const a s =>
    cases h
    exact .const a s
  | symbol name s => exact hLook name s v h
  | counter offset s =>
    cases h
    exact .counter offset s
  | paren inner s ih => exact .paren s (ih h)
  | unary op operand s ih =>
    cases hOperand : operand.evaluate base look with
    | error d => simp [Expr.evaluate, hOperand] at h
    | ok a =>
      simp only [Expr.evaluate, hOperand, Except.ok.injEq] at h
      exact h ▸ .unary op s (ih hOperand)
  | binary op lhs rhs s ihl ihr =>
    cases hLhs : lhs.evaluate base look with
    | error d => simp [Expr.evaluate, hLhs] at h
    | ok a =>
      cases hRhs : rhs.evaluate base look with
      | error d => simp [Expr.evaluate, hLhs, hRhs] at h
      | ok b =>
        cases hApply : op.apply a b with
        | none => simp [Expr.evaluate, hLhs, hRhs, hApply] at h
        | some c =>
          simp only [Expr.evaluate, hLhs, hRhs, hApply, Except.ok.injEq] at h
          exact h ▸ .binary s (ihl hLhs) (ihr hRhs) hApply

/-- A failure is explained, if that is so of the symbols that are reached. -/
theorem explains_of_evaluate
    (hLook : ∀ name usage v, look name usage = .ok v → Evaluates t base (.symbol name usage) v)
    (hFails : ∀ name usage d, t.Reaches e (.symbol name usage) → look name usage = .error d →
      Explains t base (.symbol name usage) d)
    (h : e.evaluate base look = .error d) : Explains t base e d := by
  induction e with
  | const a s => cases h
  | symbol name s => exact hFails name s d .refl h
  | counter offset s => cases h
  | paren inner s ih =>
    have hReaches : t.Reaches (.paren inner s) inner := .single (.inner inner s)
    refine .of_reaches hReaches (ih ?_ h)
    intro name usage d' hInner
    exact hFails name usage d' (hReaches.trans hInner)
  | unary op operand s ih =>
    have hReaches : t.Reaches (.unary op operand s) operand := .single (.operand op operand s)
    cases hOperand : operand.evaluate base look with
    | ok a => simp [Expr.evaluate, hOperand] at h
    | error d' =>
      simp only [Expr.evaluate, hOperand, Except.error.injEq] at h
      refine .of_reaches hReaches (ih ?_ (h ▸ hOperand))
      intro name usage d'' hInner
      exact hFails name usage d'' (hReaches.trans hInner)
  | binary op lhs rhs s ihl ihr =>
    have hLeft : t.Reaches (.binary op lhs rhs s) lhs := .single (.lhs op lhs rhs s)
    have hRight : t.Reaches (.binary op lhs rhs s) rhs := .single (.rhs op lhs rhs s)
    cases hLhs : lhs.evaluate base look with
    | error d' =>
      simp only [Expr.evaluate, hLhs, Except.error.injEq] at h
      refine .of_reaches hLeft (ihl ?_ (h ▸ hLhs))
      intro name usage d'' hInner
      exact hFails name usage d'' (hLeft.trans hInner)
    | ok a =>
      cases hRhs : rhs.evaluate base look with
      | error d' =>
        simp only [Expr.evaluate, hLhs, hRhs, Except.error.injEq] at h
        refine .of_reaches hRight (ihr ?_ (h ▸ hRhs))
        intro name usage d'' hInner
        exact hFails name usage d'' (hRight.trans hInner)
      | ok b =>
        cases hApply : op.apply a b with
        | some c => simp [Expr.evaluate, hLhs, hRhs, hApply] at h
        | none =>
          simp only [Expr.evaluate, hLhs, hRhs, hApply, Except.error.injEq] at h
          obtain ⟨hFallible, rfl⟩ := BinaryOp.apply_eq_none_iff.mp hApply
          exact h ▸ .division .refl hFallible (evaluates_of_evaluate hLook hRhs)

end Expression

-- --------
-- Symbols out of sight
-- --------

section Visible

variable {visible : List Symbol} {name : String} {usage : Span}

/-- A hidden definition is not found, and all others are. -/
theorem find?_hide (name other : String) (visible : List Symbol) :
    (hide name visible).find? (·.name == other) =
      if other = name then none else visible.find? (·.name == other) := by
  unfold hide
  rw [List.find?_filter]
  split
  · next hSame =>
    subst hSame
    simp
  · next hOther =>
    congr 1
    funext x
    by_cases hx : x.name = other
    · simp [hx, hOther]
    · simp [hx]

/-- The definitions in sight are those of the table. -/
def Shows (t : SymbolTable) (visible : List Symbol) : Prop :=
  ∀ name x, visible.find? (·.name == name) = some x → t.find? name = some x

theorem Shows.hide (h : t.Shows visible) (name : String) : t.Shows (hide name visible) := by
  intro other x hFind
  rw [find?_hide] at hFind
  split at hFind
  · cases hFind
  · exact h other x hFind

/-- **A value that was found has a derivation**, whichever definitions are in sight. -/
theorem evaluates_of_valueOf (hShows : t.Shows visible)
    (h : t.valueOf base visible name usage = .ok v) : Evaluates t base (.symbol name usage) v := by
  induction hSize : visible.length using Nat.strongRecOn generalizing visible name usage v with
  | ind n ih =>
    unfold valueOf at h
    split at h
    · next x hFind =>
      refine .symbol usage (hShows name x hFind) (evaluates_of_evaluate ?_ h)
      intro other place w hOther
      exact ih _ (hSize ▸ length_hide_lt hFind) (hShows.hide name) hOther rfl
    · split at h
      · cases h
      · cases h

/-- **A failure is explained.** A definition is out of sight only while it is being resolved, so the
expression at hand is one that it reaches. -/
theorem explains_of_valueOf (hShows : t.Shows visible)
    (hHidden : ∀ other x, t.find? other = some x → visible.find? (·.name == other) = none →
      t.Reaches x.value (.symbol name usage))
    (h : t.valueOf base visible name usage = .error d) : Explains t base (.symbol name usage) d := by
  induction hSize : visible.length using Nat.strongRecOn generalizing visible name usage d with
  | ind n ih =>
    unfold valueOf at h
    split at h
    · next x hFind =>
      have hDefinition : t.Needs (.symbol name usage) x.value :=
        .definition usage (hShows name x hFind)
      refine .of_reaches (.single hDefinition) (explains_of_evaluate ?_ ?_ h)
      · intro other place w hOther
        exact evaluates_of_valueOf (hShows.hide name) hOther
      · intro other place d' hReaches hOther
        refine ih _ (hSize ▸ length_hide_lt hFind) (hShows.hide name) ?_ hOther rfl
        intro hidden y hy hNone
        rw [find?_hide] at hNone
        split at hNone
        · next hSame =>
          -- The definition that was just taken out of sight is the one being evaluated.
          subst hSame
          obtain rfl := Option.some.inj (hy.symm.trans (hShows hidden x hFind))
          exact hReaches
        · exact ((hHidden hidden y hy hNone).tail hDefinition).trans hReaches
    · next hNone =>
      split at h
      · next x hFind =>
        cases h
        exact .recursive .refl hFind (hHidden name x hFind hNone)
      · next hFind =>
        cases h
        exact .unresolved .refl hFind

end Visible

-- --------
-- Whole tables
-- --------

theorem shows_symbols (t : SymbolTable) : t.Shows t.symbols := fun _ _ hFind => hFind

/-- **Symbols are resolved by their definitions.** An expression evaluates to a value exactly if there is a
derivation for it, also where definitions are used more than once or need themselves. Otherwise evaluation
ends with an error that names what stands in the way of a derivation. -/
theorem symbols_resolve_by_definition (t : SymbolTable) (base : Value) (e : Expr) :
    (∀ v, t.evaluate base e = .ok v ↔ Evaluates t base e v) ∧
      ∀ d, t.evaluate base e = .error d → Explains t base e d := by
  have hSound : ∀ v, t.evaluate base e = .ok v → Evaluates t base e v := by
    intro v h
    refine evaluates_of_evaluate ?_ h
    intro name usage w hName
    exact evaluates_of_valueOf t.shows_symbols hName
  have hFails : ∀ d, t.evaluate base e = .error d → Explains t base e d := by
    intro d h
    refine explains_of_evaluate ?_ ?_ h
    · intro name usage w hName
      exact evaluates_of_valueOf t.shows_symbols hName
    · intro name usage d' _ hName
      refine explains_of_valueOf t.shows_symbols ?_ hName
      intro other x hx hNone
      rw [show t.find? other = none from hNone] at hx
      cases hx
  refine ⟨fun v => ⟨hSound v, fun hv => ?_⟩, hFails⟩
  cases hResult : t.evaluate base e with
  | ok w => rw [(hSound w hResult).det hv]
  | error d => exact absurd hv (hFails d hResult).not_evaluates

/-- `c` needs `a` twice, once through `b`, and has a value; `x` and `y` need each other and have none. -/
theorem symbols_resolve_by_definition_diamond :
    let t : SymbolTable :=
      { symbols :=
          [⟨"a", .counter 4 ⟨4, 1⟩, ⟨0, 1⟩⟩, ⟨"b", .symbol "a" ⟨10, 1⟩, ⟨6, 1⟩⟩,
            ⟨"c", .binary .add (.symbol "a" ⟨16, 1⟩) (.symbol "b" ⟨20, 1⟩) ⟨16, 5⟩, ⟨12, 1⟩⟩,
            ⟨"x", .symbol "y" ⟨26, 1⟩, ⟨22, 1⟩⟩,
            ⟨"y", .unary .negate (.symbol "x" ⟨33, 1⟩) ⟨32, 2⟩, ⟨28, 1⟩⟩] }
    t.evaluate 0x1000 (.symbol "c" ⟨40, 1⟩) = .ok 0x2008 ∧
      t.evaluate 0x1000 (.symbol "x" ⟨40, 1⟩) = .error (.recursiveSymbol "x" ⟨22, 1⟩) ∧
      Explains t 0x1000 (.symbol "x" ⟨40, 1⟩) (.recursiveSymbol "x" ⟨22, 1⟩) := by
  intro t
  obtain ⟨hValue, -⟩ := symbols_resolve_by_definition t 0x1000 (.symbol "c" ⟨40, 1⟩)
  obtain ⟨-, hFails⟩ := symbols_resolve_by_definition t 0x1000 (.symbol "x" ⟨40, 1⟩)
  have hA : ∀ s, Evaluates t 0x1000 (.symbol "a" s) 0x1004 := fun s => .symbol s rfl (.counter 4 _)
  have hC : Evaluates t 0x1000 (.symbol "c" ⟨40, 1⟩) 0x2008 :=
    .symbol _ rfl (.binary _ (hA _) (.symbol _ rfl (hA _)) rfl)
  have hCycle : t.evaluate 0x1000 (.symbol "x" ⟨40, 1⟩) = .error (.recursiveSymbol "x" ⟨22, 1⟩) := by
    cbv
  exact ⟨(hValue _).mpr hC, hCycle, hFails _ hCycle⟩

end CrossAsm.SymbolTable
