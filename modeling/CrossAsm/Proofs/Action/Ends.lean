import CrossAsm.Proofs.Action

/-!
# CrossAsm — how an action ends

An action that gets through leaves a result and a state, and one that fails leaves an error and a state. `EndsAt`
says something of both at once, so that a sequence of actions is gone through only once for what it does and for the
ways in which it fails.
-/

namespace CrossAsm.Action

variable {ε σ α β : Type}

/-- From `s`, the action gets to a result and a state with `P`, or it fails with an error and in a state with `E`. -/
structure EndsAt (P : α → σ → Prop) (E : ε → σ → Prop) (x : EStateM ε σ α) (s : σ) : Prop where
  ok    : ∀ {a s'}, x s = .ok a s' → P a s'
  error : ∀ {e s'}, x s = .error e s' → E e s'

namespace EndsAt

variable {P P' : α → σ → Prop} {Q : β → σ → Prop} {E E' : ε → σ → Prop} {x : EStateM ε σ α}
  {f : α → EStateM ε σ β} {s s' : σ}

theorem of_ok {a : α} (hRun : x s = .ok a s') (h : P a s') : EndsAt P E x s := by
  constructor
  · intro a' s'' hRun'
    cases hRun.symm.trans hRun'
    exact h
  · intro e s'' hFail
    cases hRun.symm.trans hFail

theorem of_error {e : ε} (hFail : x s = .error e s') (h : E e s') : EndsAt P E x s := by
  constructor
  · intro a s'' hRun
    cases hFail.symm.trans hRun
  · intro e' s'' hFail'
    cases hFail.symm.trans hFail'
    exact h

/-- An action that comes down to another one. -/
theorem of_eq {y : EStateM ε σ α} (hy : EndsAt P E y s') (h : x s = y s') : EndsAt P E x s :=
  ⟨fun hRun => hy.ok (h.symm.trans hRun), fun hFail => hy.error (h.symm.trans hFail)⟩

theorem pure {a : α} (h : P a s) : EndsAt P E (pure a) s := of_ok rfl h

theorem throw {e : ε} (h : E e s) : EndsAt P E (throw e) s := of_error rfl h

theorem modify {P : PUnit → σ → Prop} {f : σ → σ} (h : P ⟨⟩ (f s)) : EndsAt P E (modify f) s := of_ok rfl h

/-- The second action starts where the first one ended, and does not run if that failed. -/
theorem bind (hx : EndsAt P E x s) (hf : ∀ a s', P a s' → EndsAt Q E (f a) s') : EndsAt Q E (x >>= f) s := by
  cases hRun : x s with
  | ok a mid =>
    have hRest := hf a mid (hx.ok hRun)
    constructor
    · intro b s'' hBind
      rw [bind_of_ok hRun] at hBind
      exact hRest.ok hBind
    · intro e s'' hBind
      rw [bind_of_ok hRun] at hBind
      exact hRest.error hBind
  | error e mid => exact of_error (bind_of_error hRun f) (hx.error hRun)

/-- An action that looks at the state first. -/
theorem get_bind {f : σ → EStateM ε σ β} (hf : EndsAt Q E (f s) s) : EndsAt Q E (get >>= f) s :=
  ⟨fun h => hf.ok h, fun h => hf.error h⟩

theorem imp (h : EndsAt P E x s) (hP : ∀ a s', P a s' → P' a s') (hE : ∀ e s', E e s' → E' e s') :
    EndsAt P' E' x s :=
  ⟨fun hRun => hP _ _ (h.ok hRun), fun hFail => hE _ _ (h.error hFail)⟩

end EndsAt

end CrossAsm.Action
