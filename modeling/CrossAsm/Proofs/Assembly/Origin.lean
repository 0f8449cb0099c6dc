import CrossAsm.Proofs.Assembly.Run

/-!
# CrossAsm — regions that stay where they are

`.org` moves the current region as long as it is empty. Nothing else changes the origin of a region.

* `movesRegion` — a state at an `.org` that moves a region.
* `sameOrigin_steps` — all other steps leave the origin of the region as it is.
* `stays_of_size_pos` — a region with output in it is not moved any more.
-/

namespace CrossAsm.Assembly

variable {Mnemonic Mode Feature : Type}

/-- Whether the statement is an `.org` that moves the region with the index `i`. -/
def movesRegion (s : Assembly Feature) (i : Nat) : Bool :=
  atOrigin s.cursor.behindLabel && decide (s.regionIndex = i) && s.current.output.isEmpty

/-- Region `i` has the same origin in both. -/
def SameOrigin (i : Nat) (a b : List Region) : Prop :=
  ∀ r, a[i]? = some r → ∃ r', b[i]? = some r' ∧ r'.output.origin = r.output.origin

variable {s s' : Assembly Feature} {i : Nat}

theorem SameOrigin.refl (l : List Region) : SameOrigin i l l := fun r hr => ⟨r, hr, rfl⟩

theorem SameOrigin.trans {a b c : List Region} (hab : SameOrigin i a b) (hbc : SameOrigin i b c) :
    SameOrigin i a c := by
  intro r hr
  obtain ⟨r', hr', hOrigin⟩ := hab r hr
  obtain ⟨r'', hr'', hOrigin'⟩ := hbc r' hr'
  exact ⟨r'', hr'', hOrigin'.trans hOrigin⟩

theorem Appends.sameOrigin (h : Appends s s') : SameOrigin i s.regions s'.regions := by
  intro r hr
  rcases getElem?_regions_eq_some.mp hr with hr | ⟨rfl, rfl⟩
  · exact ⟨r, getElem?_regions_eq_some.mpr (.inl (h.earlier ▸ hr)), rfl⟩
  · have hIndex : s.regionIndex = s'.regionIndex := h.regionIndex_eq.symm
    exact ⟨s'.current, getElem?_regions_eq_some.mpr (.inr ⟨hIndex, rfl⟩), h.encoder.origin⟩

/-- Opening a region touches no other one, and the current one only if it is empty. -/
theorem sameOrigin_opened (origin : Value) (span : Span)
    (h : s.regionIndex = i → s.current.output.isEmpty = false) :
    SameOrigin i s.regions (s.opened origin span).regions := by
  intro r hr
  refine ⟨r, ?_, rfl⟩
  unfold opened
  split
  · next hEmpty =>
    rcases getElem?_regions_eq_some.mp hr with hr | ⟨rfl, rfl⟩
    · exact getElem?_regions_eq_some.mpr (.inl hr)
    · rw [h rfl] at hEmpty
      cases hEmpty
  · show (s.regions ++ [_])[i]? = some r
    rw [List.getElem?_append_left (List.getElem?_eq_some_iff.mp hr).1]
    exact hr

theorem Effect.sameOrigin (h : Effect s s') (hMoves : s.movesRegion i = false) :
    SameOrigin i s.regions s'.regions := by
  cases h with
  | appends h => exact h.sameOrigin
  | opens hAt origin span h =>
    obtain ⟨⟨symbols, c, rfl⟩, -⟩ := h
    refine sameOrigin_opened origin span fun hIndex => ?_
    simpa [movesRegion, hAt, hIndex] using hMoves

variable [DecidableEq Mode] [Flag Mode] [Flag Feature] {job : Job Mnemonic Mode Feature}

theorem sameOrigin_statement (h : s.movesRegion i = false) :
    SameOrigin i s.regions (statement job s).regions := by
  cases hRun : wholeStatement job s with
  | ok u s' =>
    rw [statement_of_ok hRun]
    exact ((effect_wholeStatement job).of_ok hRun).sameOrigin h
  | error d s' =>
    rcases regions_of_error hRun with hSame | ⟨hAt, origin, span, hOpened⟩
    · rw [hSame]
      exact .refl _
    · rw [hOpened]
      refine sameOrigin_opened origin span fun hIndex => ?_
      simpa [movesRegion, hAt, hIndex] using h

theorem sameOrigin_step (h : s.movesRegion i = false) :
    SameOrigin i s.regions (step job s).regions := by
  cases hAt : s.cursor.isAt .newline with
  | true =>
    rw [step_of_newline hAt]
    exact .refl _
  | false =>
    rw [step_of_statement hAt]
    exact sameOrigin_statement h

/-- **A region keeps its origin** in a run that does not move it. -/
theorem sameOrigin_steps {n : Nat} {start : Assembly Feature}
    (h : ∀ s ∈ visits job n start, s.movesRegion i = false) :
    SameOrigin i start.regions (steps job n start).regions := by
  induction n generalizing start with
  | zero => exact .refl _
  | succ n ih =>
    unfold visits at h
    unfold steps
    by_cases hEnd : start.cursor.isExhausted = true
    · rw [if_pos hEnd]
      exact .refl _
    · rw [if_neg hEnd] at h ⊢
      obtain ⟨hFirst, hOthers⟩ := List.forall_mem_cons.mp h
      exact (sameOrigin_step hFirst).trans (ih hOthers)

/-- So the region of a statement stays where it is if nothing moves it later. -/
theorem origin_steps {n : Nat} (hRun : wholeStatement job s = .ok () s')
    (h : ∀ later ∈ visits job n (statement job s), later.movesRegion s'.regionIndex = false) :
    ∃ r, (steps job n (statement job s)).regions[s'.regionIndex]? = some r ∧
      r.output.origin = s'.current.output.origin := by
  refine sameOrigin_steps h s'.current ?_
  rw [statement_of_ok hRun]
  exact getElem?_regions_regionIndex s'

/-- A region with output in it is not moved any more. -/
theorem stays_of_size_pos {n : Nat} {start : Assembly Feature} {r : Region}
    (hr : start.regions[i]? = some r) (hSize : 0 < r.output.size) :
    ∀ later ∈ visits job n start, later.movesRegion i = false := by
  intro later hLater
  obtain ⟨r', hr', hExtends⟩ := (continues_of_mem_visits hLater).regions i r hr
  unfold movesRegion
  by_cases hIndex : later.regionIndex = i
  · have hCurrent : r' = later.current := by
      rw [← hIndex, getElem?_regions_regionIndex] at hr'
      exact (Option.some.inj hr').symm
    have hLonger : 0 < r'.output.data.length := Nat.lt_of_lt_of_le hSize hExtends.data.length_le
    have hFull : later.current.output.isEmpty = false := by
      rw [← hCurrent]
      exact List.isEmpty_eq_false_iff.mpr (List.length_pos_iff.mp hLonger)
    simp [hFull]
  · simp [hIndex]

end CrossAsm.Assembly
