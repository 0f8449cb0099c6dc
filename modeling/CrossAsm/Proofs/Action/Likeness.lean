import CrossAsm.Proofs.Action
import CrossAsm.Proofs.Likeness

/-!
# CrossAsm — actions that are alike

From corresponding states, two actions that are alike both get through or both fail. Their results, their errors and
the states they end in correspond. There is one lemma for each way to put an action together.
-/

namespace CrossAsm.Action

variable {σ τ α α' β β' : Type} {L : Likeness} {S : σ → τ → Prop} {A : α → α' → Prop} {B : β → β' → Prop}

/-- Two actions ended in the same way, in corresponding states. -/
inductive EndAlike (L : Likeness) (A : α → α' → Prop) (S : σ → τ → Prop) :
    EStateM.Result Diagnostic σ α → EStateM.Result Diagnostic τ α' → Prop
  | ok {a : α} {a' : α'} {s : σ} {t : τ} (h : A a a') (hs : S s t) : EndAlike L A S (.ok a s) (.ok a' t)
  | error {d d' : Diagnostic} {s : σ} {t : τ} (h : d.Like L d') (hs : S s t) : EndAlike L A S (.error d s) (.error d' t)

theorem EndAlike.cases {r : EStateM.Result Diagnostic σ α} {r' : EStateM.Result Diagnostic τ α'}
    (h : EndAlike L A S r r') :
    (∃ a a' s t, r = .ok a s ∧ r' = .ok a' t ∧ A a a' ∧ S s t) ∨
      ∃ d d' s t, r = .error d s ∧ r' = .error d' t ∧ d.Like L d' ∧ S s t := by
  cases h with
  | ok h hs => exact .inl ⟨_, _, _, _, rfl, rfl, h, hs⟩
  | error h hs => exact .inr ⟨_, _, _, _, rfl, rfl, h, hs⟩

/-- From corresponding states, two actions end in the same way. -/
def Like (L : Likeness) (S : σ → τ → Prop) (A : α → α' → Prop) (x : EStateM Diagnostic σ α)
    (y : EStateM Diagnostic τ α') : Prop :=
  ∀ s t, S s t → EndAlike L A S (x s) (y t)

namespace Like

variable {x : EStateM Diagnostic σ α} {y : EStateM Diagnostic τ α'} {f : α → EStateM Diagnostic σ β}
  {g : α' → EStateM Diagnostic τ β'}

theorem pure {a : α} {a' : α'} (h : A a a') : Like L S A (pure a) (pure a') := fun _ _ hs => .ok h hs

theorem throw {d d' : Diagnostic} (h : d.Like L d') :
    Like L S A (throw d : EStateM Diagnostic σ α) (throw d' : EStateM Diagnostic τ α') := fun _ _ hs => .error h hs

theorem bind (hx : Like L S A x y) (hf : ∀ a a', A a a' → Like L S B (f a) (g a')) :
    Like L S B (x >>= f) (y >>= g) := by
  intro s t hs
  rcases (hx s t hs).cases with ⟨a, a', s', t', hRun, hRun', ha, hs'⟩ | ⟨d, d', s', t', hFail, hFail', hd, hs'⟩
  · rw [bind_of_ok hRun, bind_of_ok hRun']
    exact hf a a' ha s' t' hs'
  · rw [bind_of_error hFail, bind_of_error hFail']
    exact .error hd hs'

theorem get : Like L S S (get : EStateM Diagnostic σ σ) (get : EStateM Diagnostic τ τ) := fun _ _ hs => .ok hs hs

theorem set {s : σ} {t : τ} (h : S s t) :
    Like L S Eq (set s : EStateM Diagnostic σ PUnit) (set t : EStateM Diagnostic τ PUnit) := fun _ _ _ => .ok rfl h

theorem modify {f : σ → σ} {g : τ → τ} (h : ∀ s t, S s t → S (f s) (g t)) :
    Like L S Eq (modify f : EStateM Diagnostic σ PUnit) (modify g : EStateM Diagnostic τ PUnit) :=
  fun s t hs => .ok rfl (h s t hs)

theorem forM {f : α → EStateM Diagnostic σ PUnit} {g : α' → EStateM Diagnostic τ PUnit}
    (hf : ∀ a a', A a a' → Like L S Eq (f a) (g a')) {l : List α} {l' : List α'} (hl : List.Forall₂ A l l') :
    Like L S Eq (l.forM f) (l'.forM g) := by
  induction hl with
  | nil => exact pure rfl
  | cons ha _ ih => exact (hf _ _ ha).bind fun _ _ _ => ih

end Like

end CrossAsm.Action
