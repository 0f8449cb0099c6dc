/-!
# CrossAsm — actions on a state

The encoder and the assembler are written as actions that change a state and may fail with the state they
had reached. Two questions come up about every one of them: how it got to a given result (`*_eq_ok`), and
which relation holds between the states before and after it, however it ended (`Keeps`).
-/

namespace CrossAsm.Action

variable {ε σ α β : Type}

-- --------
-- How an action succeeded
-- --------

section Success

variable {s s' : σ}

theorem bind_eq_ok {x : EStateM ε σ α} {f : α → EStateM ε σ β} {b : β} :
    (x >>= f) s = .ok b s' ↔ ∃ a mid, x s = .ok a mid ∧ f a mid = .ok b s' := by
  show EStateM.bind x f s = _ ↔ _
  unfold EStateM.bind
  cases x s with
  | ok a mid =>
    constructor
    · exact fun h => ⟨a, mid, rfl, h⟩
    · rintro ⟨a', mid', h, hf⟩
      cases h
      exact hf
  | error e mid => simp

theorem bind_of_ok {x : EStateM ε σ α} {a : α} (h : x s = .ok a s') (f : α → EStateM ε σ β) :
    (x >>= f) s = f a s' := by
  show EStateM.bind x f s = f a s'
  simp only [EStateM.bind, h]

theorem bind_of_error {x : EStateM ε σ α} {e : ε} (h : x s = .error e s') (f : α → EStateM ε σ β) :
    (x >>= f) s = .error e s' := by
  show EStateM.bind x f s = .error e s'
  simp only [EStateM.bind, h]

theorem pure_eq_ok {a b : α} : (pure a : EStateM ε σ α) s = .ok b s' ↔ a = b ∧ s = s' := by
  show EStateM.Result.ok a s = .ok b s' ↔ _
  simp

theorem get_eq_ok {a : σ} : (get : EStateM ε σ σ) s = .ok a s' ↔ s = a ∧ s = s' := by
  show EStateM.Result.ok s s = .ok a s' ↔ _
  simp

theorem set_eq_ok {new : σ} {u : PUnit} : (set new : EStateM ε σ PUnit) s = .ok u s' ↔ new = s' := by
  show EStateM.Result.ok ⟨⟩ new = .ok u s' ↔ _
  simp

theorem modify_eq_ok {f : σ → σ} {u : PUnit} :
    (modify f : EStateM ε σ PUnit) s = .ok u s' ↔ f s = s' := by
  show EStateM.Result.ok ⟨⟩ (f s) = .ok u s' ↔ _
  simp

theorem throw_ne_ok {e : ε} {a : α} : (throw e : EStateM ε σ α) s ≠ .ok a s' := by
  show EStateM.Result.error e s ≠ .ok a s'
  simp

theorem forM_cons_eq_ok {f : α → EStateM ε σ PUnit} {a : α} {l : List α} {u : PUnit} :
    (a :: l).forM f s = .ok u s' ↔ ∃ mid, f a s = .ok ⟨⟩ mid ∧ l.forM f mid = .ok u s' := by
  constructor
  · intro h
    obtain ⟨⟨⟩, mid, hHead, hTail⟩ := bind_eq_ok.mp h
    exact ⟨mid, hHead, hTail⟩
  · rintro ⟨mid, hHead, hTail⟩
    exact bind_eq_ok.mpr ⟨⟨⟩, mid, hHead, hTail⟩

theorem map_eq_ok {r : Except ε α} {f : α → β} {b : β} :
    r.map f = .ok b ↔ ∃ a, r = .ok a ∧ f a = b := by
  cases r with
  | ok a => simp [Except.map]
  | error e => simp [Except.map]

theorem ok_of_toOption {r : Except ε α} {a : α} (h : r.toOption = some a) : r = .ok a := by
  cases r with
  | ok b =>
    obtain rfl := Option.some.inj h
    rfl
  | error e => cases h

end Success

-- --------
-- What an action keeps
-- --------

/-- The state in which an action ended. -/
def stateAfter : EStateM.Result ε σ α → σ
  | .ok _ s => s
  | .error _ s => s

/-- The states before and after the action are related, whether it succeeds or fails. -/
def Keeps (R : σ → σ → Prop) (x : EStateM ε σ α) : Prop := ∀ s, R s (stateAfter (x s))

/-- The same of an action that starts in `s`. -/
def KeepsAt (R : σ → σ → Prop) (x : EStateM ε σ α) (s : σ) : Prop := R s (stateAfter (x s))

theorem KeepsAt.of_ok {R : σ → σ → Prop} {x : EStateM ε σ α} {s s' : σ} {a : α} (hx : KeepsAt R x s)
    (h : x s = .ok a s') : R s s' := by
  unfold KeepsAt at hx
  rwa [h] at hx

/-- The second action starts where the first one ended, and does not run if that failed. -/
theorem KeepsAt.bind {R : σ → σ → Prop} [Trans R R R] {x : EStateM ε σ α} {f : α → EStateM ε σ β}
    {s : σ} (hx : KeepsAt R x s) (hf : ∀ a s', x s = .ok a s' → KeepsAt R (f a) s') :
    KeepsAt R (x >>= f) s := by
  show R s (stateAfter (EStateM.bind x f s))
  unfold KeepsAt at hx
  unfold EStateM.bind
  cases hRun : x s with
  | ok a mid =>
    rw [hRun] at hx
    exact Trans.trans hx (hf a mid hRun)
  | error e mid =>
    rw [hRun] at hx
    exact hx

namespace Keeps

variable {R : σ → σ → Prop} {x : EStateM ε σ α} {s s' : σ}

theorem of_ok (hx : Keeps R x) {a : α} (h : x s = .ok a s') : R s s' := KeepsAt.of_ok (hx s) h

theorem of_error (hx : Keeps R x) {e : ε} (h : x s = .error e s') : R s s' := by
  have hAfter := hx s
  rwa [h] at hAfter

theorem modify {f : σ → σ} (hf : ∀ s, R s (f s)) : Keeps R (modify f : EStateM ε σ PUnit) := hf

theorem bind [Trans R R R] {f : α → EStateM ε σ β} (hx : Keeps R x) (hf : ∀ a, Keeps R (f a)) :
    Keeps R (x >>= f) :=
  fun s => KeepsAt.bind (hx s) fun a s' _ => hf a s'

variable [Std.Refl R]

theorem pure (a : α) : Keeps R (pure a : EStateM ε σ α) := Std.Refl.refl

theorem get : Keeps R (get : EStateM ε σ σ) := Std.Refl.refl

theorem throw (e : ε) : Keeps R (throw e : EStateM ε σ α) := Std.Refl.refl

/-- What comes second goes on from wherever the first action ended. -/
theorem after_bind {f : α → EStateM ε σ β} (hf : ∀ a, Keeps R (f a)) (x : EStateM ε σ α) (s : σ) :
    R (stateAfter (x s)) (stateAfter ((x >>= f) s)) := by
  show R _ (stateAfter (EStateM.bind x f s))
  unfold EStateM.bind
  cases x s with
  | ok a mid => exact hf a mid
  | error e mid => exact Std.Refl.refl mid

theorem forM [Trans R R R] {f : α → EStateM ε σ PUnit} (hf : ∀ a, Keeps R (f a)) (l : List α) :
    Keeps R (l.forM f) := by
  induction l with
  | nil => exact Keeps.pure _
  | cons a l ih => exact (hf a).bind fun _ => ih

end Keeps

end CrossAsm.Action
