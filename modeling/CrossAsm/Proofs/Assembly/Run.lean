import CrossAsm.Assembler
import CrossAsm.Proofs.Assembly.Growth

/-!
# CrossAsm — the statements of a program

A program is what a run without errors leaves behind. `Family.states` lists the states in which that run
takes its steps, one for each newline and each statement of the source.

* `Family.accepted_run`: each of them that is at a statement gets through it, and the run goes on from there
  to the program.
* `Family.accepted_statement`: so what the statement has written is in the program.
-/

namespace CrossAsm

namespace Program

/-- All regions of the program are well-formed. -/
def WellFormed (p : Program) : Prop := ∀ r ∈ p.regions, r.output.WellFormed

/-- Every region of the run is continued by the region of the program with the same index. -/
def Includes {Feature : Type} (p : Program) (s : Assembly Feature) : Prop :=
  ∀ (i : Nat) (r : Region), s.regions[i]? = some r →
    ∃ r', p.regions[i]? = some r' ∧ r.output.Extends r'.output

end Program

section

variable {Mnemonic Mode Feature : Type} [DecidableEq Mode] [Flag Mode] [Flag Feature]

namespace Assembly

variable (job : Job Mnemonic Mode Feature)

/-- The states in which a run takes its steps. -/
def visits : Nat → Assembly Feature → List (Assembly Feature)
  | 0, _ => []
  | n + 1, s => if s.cursor.isExhausted then [] else s :: visits n (step job s)

variable {job}

/-- What every step keeps is so in all states of a run, if it is so at its start. -/
theorem visits_induction {motive : Assembly Feature → Prop}
    (hStep : ∀ t, motive t → t.cursor.isExhausted = false → motive (step job t)) {n : Nat}
    {start s : Assembly Feature} (h : motive start) (hs : s ∈ visits job n start) : motive s := by
  induction n generalizing start with
  | zero => cases hs
  | succ n ih =>
    unfold visits at hs
    split at hs
    · cases hs
    · next hMore =>
      rcases List.mem_cons.mp hs with rfl | hs
      · exact h
      · exact ih (hStep start h (Bool.eq_false_iff.mpr hMore)) hs

theorem continues_of_mem_visits {n : Nat} {start s : Assembly Feature} (hs : s ∈ visits job n start) :
    Continues start s :=
  visits_induction (motive := Continues start) (fun t h _ => h.trans (continues_step job t)) (.refl start) hs

/-- What comes behind one of the states is a run of its own. -/
theorem visits_eq_append {n : Nat} {start s : Assembly Feature} {before after : List (Assembly Feature)}
    (h : visits job n start = before ++ s :: after) :
    ∃ m, visits job m (step job s) = after ∧ steps job m (step job s) = steps job n start := by
  induction n generalizing start before with
  | zero => simp [visits] at h
  | succ n ih =>
    unfold visits at h
    split at h
    · simp at h
    · next hMore =>
      have hSteps : steps job (n + 1) start = steps job n (step job start) := by
        rw [steps, if_neg hMore]
      rw [hSteps]
      cases before with
      | nil =>
        obtain ⟨rfl, hAfter⟩ := List.cons.inj h
        exact ⟨n, hAfter, rfl⟩
      | cons first before => exact ih (List.cons.inj h).2

theorem step_of_newline {s : Assembly Feature} (hAt : s.cursor.isAt .newline = true) :
    step job s = { s with cursor := s.cursor.next } := by
  simp [step, Cursor.eat?, hAt]

theorem step_of_statement {s : Assembly Feature} (hAt : s.cursor.isAt .newline = false) :
    step job s = statement job s := by
  simp [step, Cursor.eat?, hAt]

/-- The line of the listing for a statement that got from `s` to `s'`. -/
def entry (job : Job Mnemonic Mode Feature) (s s' : Assembly Feature) : ListingLine :=
  let offset := if s'.regionIndex = s.regionIndex then s.current.output.size else 0
  ⟨job.lineAt s.cursor.peek.span.start, s'.regionIndex, offset, s'.current.output.size - offset⟩

omit [DecidableEq Mode] [Flag Mode] [Flag Feature] in
/-- The output of a statement that starts in an empty region, or opens one, is listed from the start of the region. -/
theorem offset_entry_eq_zero {s s' : Assembly Feature}
    (h : s'.regionIndex = s.regionIndex → s.current.output.size = 0) : (entry job s s').offset = 0 := by
  unfold entry
  dsimp only
  split
  · next hIndex => exact h hIndex
  · rfl

theorem statement_of_ok {s s' : Assembly Feature} (h : wholeStatement job s = .ok () s') :
    statement job s = { s' with listing := s'.listing ++ [entry job s s'] } := by
  unfold statement
  rw [h]
  rfl

/-- The state that a failing statement leaves: its output is taken back and its error is kept. -/
theorem statement_of_error {s s' : Assembly Feature} {d : Diagnostic}
    (h : wholeStatement job s = .error d s') :
    ∃ earlier current, statement job s =
      { s' with earlier, current, errors := s.errors ++ [d], cursor := s'.cursor.skipStatement } := by
  obtain ⟨earlier, current, hBack⟩ := rollback_eq s' s.regionIndex s.current.output.checkpoint
  refine ⟨earlier, current, ?_⟩
  unfold statement
  rw [h]
  dsimp only
  rw [hBack, ((effect_wholeStatement job).of_error h).keeps.2.2]

/-- The regions are what they were, but for one that `.org` has moved or opened. -/
theorem regions_of_error {s s' : Assembly Feature} {d : Diagnostic}
    (h : wholeStatement job s = .error d s') :
    (statement job s).regions = s.regions ∨
      atOrigin s.cursor.behindLabel = true ∧ ∃ origin span,
        (statement job s).regions = (s.opened origin span).regions := by
  have hRegions : (statement job s).regions =
      (s'.rollback s.regionIndex s.current.output.checkpoint).regions := by
    unfold statement
    rw [h]
    rfl
  rw [hRegions]
  exact regions_rollback_of_effect ((effect_wholeStatement job).of_error h)

/-- In a run without errors, every statement gets through. -/
theorem exists_ok_of_errors {s : Assembly Feature} {n : Nat} (h : (steps job n (statement job s)).errors = []) :
    ∃ s', wholeStatement job s = .ok () s' := by
  -- Errors are never forgotten, so this statement left none either.
  have hHere : (statement job s).errors = [] := by
    have hPrefix := (continues_steps job (statement job s) n).errors
    rw [h] at hPrefix
    exact List.prefix_nil.mp hPrefix
  cases hRun : wholeStatement job s with
  | ok u s' => exact ⟨s', rfl⟩
  | error d s' =>
    obtain ⟨earlier, current, hStatement⟩ := statement_of_error hRun
    simp [hStatement] at hHere

theorem listing_statement {s s' : Assembly Feature} (h : wholeStatement job s = .ok () s') :
    (statement job s).listing = s.listing ++ [entry job s s'] := by
  rw [statement_of_ok h, ((effect_wholeStatement job).of_ok h).keeps.2.1]

/-- The listing has each statement that got through, in order. -/
theorem listing_steps {s s' : Assembly Feature} (h : wholeStatement job s = .ok () s') (n : Nat) :
    (steps job n (statement job s)).listing[s.listing.length]? = some (entry job s s') := by
  obtain ⟨more, hMore⟩ := (continues_steps job (statement job s) n).listing
  rw [← hMore, listing_statement h, List.append_assoc, List.getElem?_append_right (Nat.le_refl _), Nat.sub_self]
  rfl

omit [DecidableEq Mode] [Flag Mode] [Flag Feature] in
theorem result_finish_of_nil {s : Assembly Feature} (h : s.errors = []) :
    s.finish.result = .ok ⟨s.regions, s.symbols, s.listing⟩ := by
  simp only [finish, h]

omit [DecidableEq Mode] [Flag Mode] [Flag Feature] in
theorem result_finish_of_ne_nil {s : Assembly Feature} (h : s.errors ≠ []) :
    s.finish.result = .error (.collected s.errors) := by
  unfold finish
  split
  · next hNil => exact absurd hNil h
  · rfl

end Assembly

namespace Family

variable (F : Family Mnemonic Mode Feature) (machine : Machine Feature) (policy : Policy)
  (source : String)

/-- What stays the same while a source text is assembled. -/
def job (policy : Policy) (source : String) : Job Mnemonic Mode Feature :=
  ⟨F, policy, newlineOffsets 0 source.toList⟩

/-- The states in which the run over a source text takes its steps. -/
def states : List (Assembly Feature) :=
  match Token.scan source with
  | .error _ => []
  | .ok tokens =>
    Assembly.visits (F.job policy source) tokens.length
      { machine, cursor := ⟨tokens, source.utf8ByteSize⟩ }

theorem states_of_scan {tokens : List Token} (hScan : Token.scan source = .ok tokens) :
    F.states machine policy source =
      Assembly.visits (F.job policy source) tokens.length
        { machine, cursor := ⟨tokens, source.utf8ByteSize⟩ } := by
  unfold states
  rw [hScan]

theorem assemble_of_scan {tokens : List Token} (hScan : Token.scan source = .ok tokens) :
    F.assemble machine policy source =
      (Assembly.steps (F.job policy source) tokens.length
        { machine, cursor := ⟨tokens, source.utf8ByteSize⟩ }).finish := by
  unfold assemble
  rw [hScan]
  rfl

variable {F machine policy source} {p : Program} {s : Assembly Feature}

/-- A source with a state was scanned. -/
theorem visits_of_mem_states (hs : s ∈ F.states machine policy source) :
    ∃ tokens, Token.scan source = .ok tokens ∧
      s ∈ Assembly.visits (F.job policy source) tokens.length
        { machine, cursor := ⟨tokens, source.utf8ByteSize⟩ } := by
  cases hScan : Token.scan source with
  | error d =>
    unfold states at hs
    rw [hScan] at hs
    cases hs
  | ok tokens => exact ⟨tokens, rfl, states_of_scan F machine policy source hScan ▸ hs⟩

theorem wellFormed_of_mem_states (hs : s ∈ F.states machine policy source) : s.WellFormed := by
  obtain ⟨tokens, -, hVisit⟩ := visits_of_mem_states hs
  refine (Assembly.continues_of_mem_visits hVisit).wellFormed fun r hr => ?_
  rw [List.mem_singleton.mp hr]
  exact .empty none

/-- A program is what its run leaves. -/
theorem exists_run (h : (F.assemble machine policy source).result = .ok p) :
    ∃ tokens final, Token.scan source = .ok tokens ∧
      Assembly.steps (F.job policy source) tokens.length
        { machine, cursor := ⟨tokens, source.utf8ByteSize⟩ } = final ∧
      final.errors = [] ∧ p = ⟨final.regions, final.symbols, final.listing⟩ := by
  cases hScan : Token.scan source with
  | error d =>
    unfold assemble at h
    rw [hScan] at h
    cases h
  | ok tokens =>
    rw [assemble_of_scan F machine policy source hScan] at h
    refine ⟨tokens, _, rfl, rfl, ?_⟩
    by_cases hErrors : (Assembly.steps (F.job policy source) tokens.length
        { machine, cursor := ⟨tokens, source.utf8ByteSize⟩ }).errors = []
    · rw [Assembly.result_finish_of_nil hErrors] at h
      exact ⟨hErrors, (Except.ok.inj h).symm⟩
    · rw [Assembly.result_finish_of_ne_nil hErrors] at h
      cases h

/-- **The statements of a program** all got through. The run behind each of them made the program. -/
theorem accepted_run {before after : List (Assembly Feature)}
    (hAssembled : (F.assemble machine policy source).result = .ok p)
    (hStates : F.states machine policy source = before ++ s :: after)
    (hAt : s.cursor.isAt .newline = false) :
    ∃ s' n final, Assembly.wholeStatement (F.job policy source) s = .ok () s' ∧
      Assembly.visits (F.job policy source) n (Assembly.statement (F.job policy source) s) = after ∧
      Assembly.steps (F.job policy source) n (Assembly.statement (F.job policy source) s) = final ∧
      p = ⟨final.regions, final.symbols, final.listing⟩ := by
  obtain ⟨tokens, final, hScan, hRun, hErrors, rfl⟩ := exists_run hAssembled
  rw [states_of_scan F machine policy source hScan] at hStates
  obtain ⟨n, hAfter, hSteps⟩ := Assembly.visits_eq_append hStates
  rw [Assembly.step_of_statement hAt] at hAfter hSteps
  have hFinal := hSteps.trans hRun
  rw [← hFinal] at hErrors
  obtain ⟨s', hWhole⟩ := Assembly.exists_ok_of_errors hErrors
  exact ⟨s', n, final, hWhole, hAfter, hFinal, rfl⟩

/-- What a statement wrote is in the program. -/
theorem accepted_statement (hAssembled : (F.assemble machine policy source).result = .ok p)
    (hs : s ∈ F.states machine policy source) (hAt : s.cursor.isAt .newline = false) :
    s.WellFormed ∧ p.WellFormed ∧
      ∃ s', Assembly.wholeStatement (F.job policy source) s = .ok () s' ∧ p.Includes s' := by
  obtain ⟨before, after, hStates⟩ := List.append_of_mem hs
  obtain ⟨s', n, final, hRun, -, hFinal, rfl⟩ := accepted_run hAssembled hStates hAt
  have hWell := wellFormed_of_mem_states hs
  have hStatement := Assembly.continues_statement (F.job policy source) s
  have hMore := Assembly.continues_steps (F.job policy source)
    (Assembly.statement (F.job policy source) s) n
  rw [hFinal] at hMore
  refine ⟨hWell, hMore.wellFormed (hStatement.wellFormed hWell), s', hRun, ?_⟩
  intro i r hr
  refine hMore.regions i r ?_
  rw [Assembly.statement_of_ok hRun]
  exact hr

end Family

end

end CrossAsm
