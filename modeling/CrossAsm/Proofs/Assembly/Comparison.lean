import CrossAsm.Proofs.Assembly.Lockstep

/-!
# CrossAsm — the ways in which two runs are compared

* `Comparison.same` — both runs report the same and have no reason to differ.
* `Comparison.sifting`, `Comparison.relaxing` — a run under a policy compared with the run under none, and the other
  way round.
* `Comparison.switchedOn`, `Comparison.switchedOff` — a run with synthesis compared with one without it, in either
  direction.
-/

namespace CrossAsm

/-- The diagnostic is the advice that an instruction was synthesized. -/
def Diagnostic.IsSynthesized (d : Diagnostic) : Prop := d.shortCode = "synthesized_instruction"

-- --------
-- What becomes of a diagnostic
-- --------

namespace Policy

variable (policy : Policy) {d : Diagnostic} {new : List Diagnostic}

/-- A diagnostic that is no error is reported unless it is ignored. -/
theorem judge_eq_ok :
    policy.judge d = .ok new ↔ policy.isError d = false ∧ new = if policy.ignores d then [] else [d] := by
  unfold judge
  cases policy.isError d with
  | true => simp
  | false => cases policy.ignores d <;> simp [eq_comm]

variable {policy}

theorem judge_of_isError (h : policy.isError d = true) : policy.judge d = .error d := if_pos h

/-- Without lists, everything but errors is reported. -/
theorem judge_empty_eq_ok :
    ({} : Policy).judge d = .ok new ↔ (d.severity == .error) = false ∧ new = [d] := by
  rw [judge_eq_ok]
  have hError : ({} : Policy).isError d = (d.severity == .error) := by
    unfold isError
    exact Bool.or_false _
  rw [hError]
  exact Iff.rfl

variable (policy)

/-- Nothing is denied, and what is ignored is left out. -/
def Sifts (reported reported' : List Diagnostic) : Prop :=
  (∀ d ∈ reported, policy.denies d = false) ∧ reported' = reported.filter fun d => !policy.ignores d

/-- The diagnostic is the first one that is denied. -/
def DeniesFirst (d : Diagnostic) (reported : List Diagnostic) : Prop := reported.find? policy.denies = some d

/-- What is reported under no policy is reported, left out or thrown. -/
theorem compares_sifts : Compares {} policy policy.Sifts policy.DeniesFirst d := by
  rintro reported _ new ⟨hNone, rfl⟩ hJudge
  obtain ⟨hError, rfl⟩ := judge_empty_eq_ok.mp hJudge
  cases hDenies : policy.denies d with
  | true =>
    refine .inr ⟨judge_of_isError (by simp [isError, hDenies]), ?_⟩
    have hBefore : reported.find? policy.denies = none := by simpa using hNone
    rw [DeniesFirst, List.find?_append, hBefore, List.find?_cons_of_pos hDenies]
    rfl
  | false =>
    refine .inl ⟨_, (judge_eq_ok policy).mpr ⟨?_, rfl⟩, ?_, ?_⟩
    · rw [isError, hError, hDenies]
      rfl
    · intro d' hd'
      rcases List.mem_append.mp hd' with hOld | hNew
      · exact hNone d' hOld
      · rw [List.mem_singleton.mp hNew]
        exact hDenies
    · rw [List.filter_append]
      cases hIgnores : policy.ignores d <;> simp [hIgnores]

/-- Under one policy, everything is reported twice. -/
theorem compares_eq {excuses : Diagnostic → List Diagnostic → Prop} : Compares policy policy Eq excuses d := by
  rintro reported _ new rfl hJudge
  exact .inl ⟨new, hJudge, rfl⟩

end Policy

-- --------
-- Comparisons
-- --------

namespace Comparison

/-- Two runs that report the same and have no reason to differ. -/
def same (policy : Policy) : Comparison policy policy where
  switches := Eq
  reports := Eq
  excuses _ _ := False
  reports_nil := rfl
  excuses_mono h _ := h
  compares_tooLarge _ _ _ := policy.compares_eq
  compares_synthesized _ _ _ _ := policy.compares_eq
  excuses_synthesized h := by cases h

/-- The run under no policy is followed by the run under `policy`. -/
def sifting (policy : Policy) : Comparison {} policy where
  switches := Eq
  reports := policy.Sifts
  excuses := policy.DeniesFirst
  reports_nil := ⟨by simp, rfl⟩
  excuses_mono h hPrefix := by
    obtain ⟨more, rfl⟩ := hPrefix
    rw [Policy.DeniesFirst, List.find?_append, h, Option.some_or]
  compares_tooLarge _ _ _ := policy.compares_sifts
  compares_synthesized _ _ _ _ := policy.compares_sifts
  excuses_synthesized h := by cases h

/-- The run under `policy` is followed by the run under none, which goes through whatever the first one does. -/
def relaxing (policy : Policy) : Comparison policy {} where
  switches := Eq
  reports _ _ := True
  excuses _ _ := False
  reports_nil := trivial
  excuses_mono h _ := h
  compares_tooLarge _ _ _ := fun _ _ _ _ _ => .inl ⟨_, Policy.judge_empty_eq_ok.mpr ⟨rfl, rfl⟩, trivial⟩
  compares_synthesized _ _ _ _ := fun _ _ _ _ _ => .inl ⟨_, Policy.judge_empty_eq_ok.mpr ⟨rfl, rfl⟩, trivial⟩
  excuses_synthesized h := by cases h

/-- A run without synthesis is followed by one with it. The first one has not synthesized anything. -/
def switchedOn : Comparison {} {} where
  switches on on' := on = false ∧ on' = true
  reports reported reported' := reported' = reported ∧ ∀ d ∈ reported, ¬d.IsSynthesized
  excuses _ _ := False
  reports_nil := ⟨rfl, by simp⟩
  excuses_mono h _ := h
  compares_tooLarge v bits span := by
    rintro reported _ new ⟨rfl, hNone⟩ hJudge
    obtain ⟨-, rfl⟩ := Policy.judge_empty_eq_ok.mp hJudge
    refine .inl ⟨_, hJudge, rfl, ?_⟩
    intro d hd
    rcases List.mem_append.mp hd with hOld | hNew
    · exact hNone d hOld
    · rw [List.mem_singleton.mp hNew]
      show ¬"value_too_large" = "synthesized_instruction"
      decide
  compares_synthesized h := by cases h.1
  excuses_synthesized h := by cases h.1

/-- A run with synthesis is followed by one without it, which fails where the first one has synthesized something. -/
def switchedOff : Comparison {} {} where
  switches _ _ := True
  reports := Eq
  excuses _ reported := ∃ d ∈ reported, d.IsSynthesized
  reports_nil := rfl
  excuses_mono h hPrefix := by
    obtain ⟨d, hd, hSynthesized⟩ := h
    exact ⟨d, hPrefix.subset hd, hSynthesized⟩
  compares_tooLarge _ _ _ := Policy.compares_eq {}
  compares_synthesized _ _ _ _ := Policy.compares_eq {}
  excuses_synthesized _ _ reported _ name count span hJudge := by
    obtain ⟨-, rfl⟩ := Policy.judge_empty_eq_ok.mp hJudge
    exact ⟨.synthesized name count span, List.mem_append_right _ (List.mem_singleton_self _), rfl⟩

end Comparison

end CrossAsm
