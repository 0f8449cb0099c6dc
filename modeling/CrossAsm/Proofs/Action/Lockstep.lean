import CrossAsm.Proofs.Action

/-!
# CrossAsm — two actions side by side

Two runs that differ in a machine or in a policy take the same actions in states that differ a little. The
second run may do all that the first one does, or fail on the way. If it fails, what the first run leaves
behind accounts for the error: there is a warning, say, that only the second run does not let pass.

* `Action.Lockstep` — an action that does what another one does, unless the other one accounts for its error.
* `Action.Lockstep.bind` — actions in lockstep can be put one behind the other.
-/

namespace CrossAsm.Action

variable {ε σ τ α β : Type}

/-- If `x` gets through from `s`, then `y` gets through from `t` with the same result and to a related state, or
it fails with an error for which the state behind `x` accounts. -/
def LockstepAt (R : σ → τ → Prop) (E : ε → σ → Prop) (x : EStateM ε σ α) (y : EStateM ε τ α) (s : σ) (t : τ) :
    Prop :=
  ∀ a s', x s = .ok a s' →
    (∃ t', y t = .ok a t' ∧ R s' t') ∨ ∃ e t', y t = .error e t' ∧ E e s'

/-- So it is in all related states. What is accounted for in front of `x` is still so behind it. -/
structure Lockstep (R : σ → τ → Prop) (E : ε → σ → Prop) (x : EStateM ε σ α) (y : EStateM ε τ α) : Prop where
  run   : ∀ s t, R s t → LockstepAt R E x y s t
  stays : ∀ {s a s'}, x s = .ok a s' → ∀ e, E e s → E e s'

variable {R : σ → τ → Prop} {E : ε → σ → Prop}

theorem LockstepAt.bind {x : EStateM ε σ α} {y : EStateM ε τ α} {f : α → EStateM ε σ β}
    {g : α → EStateM ε τ β} {s : σ} {t : τ} (hx : LockstepAt R E x y s t)
    (hf : ∀ a s' t', x s = .ok a s' → R s' t' → LockstepAt R E (f a) (g a) s' t')
    (hStays : ∀ a s' b s'', f a s' = .ok b s'' → ∀ e, E e s' → E e s'') :
    LockstepAt R E (x >>= f) (y >>= g) s t := by
  intro b s'' hBind
  obtain ⟨a, s', hRun, hRest⟩ := bind_eq_ok.mp hBind
  rcases hx a s' hRun with ⟨t', hRun', hRelated⟩ | ⟨e, t', hFail, hAccount⟩
  · rw [bind_of_ok hRun' g]
    exact hf a s' t' hRun hRelated b s'' hRest
  · exact .inr ⟨e, t', bind_of_error hFail g, hStays a s' b s'' hRest e hAccount⟩

namespace Lockstep

variable {x : EStateM ε σ α} {y : EStateM ε τ α}

theorem bind {f : α → EStateM ε σ β} {g : α → EStateM ε τ β} (hx : Lockstep R E x y)
    (hf : ∀ a, Lockstep R E (f a) (g a)) : Lockstep R E (x >>= f) (y >>= g) where
  run s t h :=
    (hx.run s t h).bind (fun a s' t' _ h' => (hf a).run s' t' h') fun a _ _ _ h' => (hf a).stays h'
  stays h e he := by
    obtain ⟨a, mid, hFirst, hRest⟩ := bind_eq_ok.mp h
    exact (hf a).stays hRest e (hx.stays hFirst e he)

theorem pure (a : α) : Lockstep R E (pure a) (pure a) where
  run s t h := by
    intro b s' hPure
    obtain ⟨rfl, rfl⟩ := pure_eq_ok.mp hPure
    exact .inl ⟨t, rfl, h⟩
  stays h e he := by
    obtain ⟨-, rfl⟩ := pure_eq_ok.mp h
    exact he

/-- Any action is in lockstep with one that never gets through. -/
theorem throw (e : ε) (y : EStateM ε τ α) : Lockstep R E (throw e) y where
  run _ _ _ := fun _ _ h => absurd h throw_ne_ok
  stays h := absurd h throw_ne_ok

theorem modify {f : σ → σ} {g : τ → τ} (hRelated : ∀ s t, R s t → R (f s) (g t))
    (hStays : ∀ s e, E e s → E e (f s)) :
    Lockstep R E (modify f : EStateM ε σ PUnit) (modify g : EStateM ε τ PUnit) where
  run s t h := by
    intro u s' hModify
    obtain rfl := modify_eq_ok.mp hModify
    exact .inl ⟨g t, rfl, hRelated s t h⟩
  stays h e he := by
    obtain rfl := modify_eq_ok.mp h
    exact hStays _ e he

theorem forM {f : α → EStateM ε σ PUnit} {g : α → EStateM ε τ PUnit} (hf : ∀ a, Lockstep R E (f a) (g a))
    (l : List α) : Lockstep R E (l.forM f) (l.forM g) := by
  induction l with
  | nil => exact pure _
  | cons a l ih => exact (hf a).bind fun _ => ih

end Lockstep

end CrossAsm.Action
