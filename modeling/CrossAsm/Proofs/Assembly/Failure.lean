import CrossAsm.Proofs.Assembly.Line

/-!
# CrossAsm — statements that fail

A statement can fail after it has written bytes, moved a region or defined symbols. What it has written is
taken back, and its error is kept.

* `Assembly.SameOutput` — two states with the same bytes and patches.
* `Assembly.sameOutput_statement` — a statement that fails leaves the output as it was.
* `Assembly.errors_steps` — the errors of a run are those of its statements, in order.
-/

namespace CrossAsm

-- --------
-- Output
-- --------

namespace Region

/-- Every region of `a` holds in `b` what it held, and the regions of `b` behind them are empty. -/
structure SameOutput (a b : List Region) : Prop where
  kept  : ∀ (i : Nat) (r : Region), a[i]? = some r →
            ∃ r', b[i]? = some r' ∧ r'.output.data = r.output.data ∧ r'.output.patches = r.output.patches
  added : ∀ (i : Nat) (r : Region), a.length ≤ i → b[i]? = some r →
            r.output.data = [] ∧ r.output.patches = []

namespace SameOutput

theorem refl (l : List Region) : SameOutput l l := by
  refine ⟨fun i r hr => ⟨r, hr, rfl, rfl⟩, fun i r hi hr => ?_⟩
  rw [List.getElem?_eq_none hi] at hr
  cases hr

theorem of_last (l : List Region) {r r' : Region} (hData : r'.output.data = r.output.data)
    (hPatches : r'.output.patches = r.output.patches) : SameOutput (l ++ [r]) (l ++ [r']) := by
  refine ⟨fun i x hx => ?_, fun i x hi hx => ?_⟩
  · rcases Nat.lt_or_ge i l.length with hLt | hGe
    · rw [List.getElem?_append_left hLt] at hx ⊢
      exact ⟨x, hx, rfl, rfl⟩
    · rw [List.getElem?_append_right hGe, List.getElem?_singleton] at hx ⊢
      split at hx
      · next hZero =>
        cases hx
        exact ⟨r', if_pos hZero, hData, hPatches⟩
      · cases hx
  · rw [List.getElem?_eq_none (by simpa using hi)] at hx
    cases hx

theorem of_added (l : List Region) {r : Region} (hData : r.output.data = [])
    (hPatches : r.output.patches = []) : SameOutput l (l ++ [r]) := by
  refine ⟨fun i x hx => ⟨x, ?_, rfl, rfl⟩, fun i x hi hx => ?_⟩
  · rw [List.getElem?_append_left (List.getElem?_eq_some_iff.mp hx).1]
    exact hx
  · rw [List.getElem?_append_right hi, List.getElem?_singleton] at hx
    split at hx
    · cases hx
      exact ⟨hData, hPatches⟩
    · cases hx

end SameOutput

end Region

namespace Assembly

variable {Mnemonic Mode Feature : Type}

/-- Moving an empty region or opening another one writes nothing. -/
theorem sameOutput_opened (s : Assembly Feature) (origin : Value) (span : Span) :
    Region.SameOutput s.regions (s.opened origin span).regions := by
  unfold opened
  split
  · exact .of_last s.earlier rfl rfl
  · exact .of_added s.regions rfl rfl

-- --------
-- One statement
-- --------

variable [DecidableEq Mode] [Flag Mode] [Flag Feature]

/-- The error of the statement at which the run is, if it fails. -/
def failure? (job : Job Mnemonic Mode Feature) (s : Assembly Feature) : Option Diagnostic :=
  if s.cursor.isAt .newline then none
  else
    match wholeStatement job s with
    | .ok _ _ => none
    | .error d _ => some d

variable {job : Job Mnemonic Mode Feature} {s s' : Assembly Feature} {d : Diagnostic}

theorem failure?_eq_some (h : failure? job s = some d) : ∃ s', wholeStatement job s = .error d s' := by
  unfold failure? at h
  split at h
  · cases h
  · cases hRun : wholeStatement job s with
    | ok u s' => simp [hRun] at h
    | error e s' =>
      simp only [hRun, Option.some.injEq] at h
      exact ⟨s', h ▸ rfl⟩

/-- **A statement that fails leaves the output as it was.** -/
theorem sameOutput_statement (h : wholeStatement job s = .error d s') :
    Region.SameOutput s.regions (statement job s).regions := by
  rcases regions_of_error h with hSame | ⟨-, origin, span, hOpened⟩
  · rw [hSame]
    exact .refl _
  · rw [hOpened]
    exact sameOutput_opened s origin span

-- --------
-- Runs
-- --------

/-- A step adds the error of its statement, if that fails. -/
theorem errors_step (s : Assembly Feature) :
    (step job s).errors = s.errors ++ (failure? job s).toList := by
  unfold failure?
  cases hAt : s.cursor.isAt .newline with
  | true =>
    rw [step_of_newline hAt]
    simp
  | false =>
    rw [step_of_statement hAt]
    cases hRun : wholeStatement job s with
    | ok u s' =>
      have hErrors := ((effect_wholeStatement job).of_ok hRun).keeps.2.2
      simp [statement, hRun, hErrors]
    | error d s' =>
      obtain ⟨earlier, current, hStatement⟩ := statement_of_error hRun
      simp [hStatement]

/-- **The errors of a run** are those of its failing statements, in the order of its steps. -/
theorem errors_steps (n : Nat) (start : Assembly Feature) :
    (steps job n start).errors = start.errors ++ (visits job n start).filterMap (failure? job) := by
  induction n generalizing start with
  | zero => simp [steps, visits]
  | succ n ih =>
    unfold steps visits
    split
    · simp
    · rw [ih, errors_step, List.append_assoc]
      congr 1
      cases hFailure : failure? job start <;> simp [hFailure]

end Assembly

namespace Family

variable {Mnemonic Mode Feature : Type} [DecidableEq Mode] [Flag Mode] [Flag Feature]
  {F : Family Mnemonic Mode Feature}

/-- The errors of the failing statements of a source text. -/
def failures (F : Family Mnemonic Mode Feature) (machine : Machine Feature) (policy : Policy)
    (source : String) : List Diagnostic :=
  (F.states machine policy source).filterMap (Assembly.failure? (F.job policy source))

variable (F) (machine : Machine Feature) (policy : Policy) {source : String} {tokens : List Token}

/-- The run over a source text leaves the errors of its failing statements. -/
theorem errors_run (hScan : Token.scan source = .ok tokens) :
    (Assembly.steps (F.job policy source) tokens.length
      { machine, cursor := ⟨tokens, source.utf8ByteSize⟩ }).errors = F.failures machine policy source := by
  rw [Assembly.errors_steps]
  unfold failures
  rw [states_of_scan _ _ _ _ hScan]
  rfl

variable {F} (source) in
/-- **Statements that fail leave no output**, and all of them are reported. The states of the run, and so
the errors, come in the order of the source. A text that is not made of tokens has no statements. -/
theorem failing_statements_leave_no_output (hF : F.Shipped) :
    (∀ s s' d, Assembly.wholeStatement (F.job policy source) s = .error d s' →
      Region.SameOutput s.regions (Assembly.statement (F.job policy source) s).regions ∧
      (Assembly.statement (F.job policy source) s).listing = s.listing ∧
      (∀ name x, s.symbols.find? name = some x →
        (Assembly.statement (F.job policy source) s).symbols.find? name = some x) ∧
      (Assembly.statement (F.job policy source) s).errors = s.errors ++ [d]) ∧
    (∀ d, Token.scan source = .error d →
      (F.assemble machine policy source).result = .error (.single d)) ∧
    ∀ tokens, Token.scan source = .ok tokens →
      (F.states machine policy source).Pairwise
        (fun a b => b.cursor.rest <:+ a.cursor.rest.tail) ∧
      (F.failures machine policy source ≠ [] →
        (F.assemble machine policy source).result =
          .error (.collected (F.failures machine policy source))) ∧
      ((∃ p, (F.assemble machine policy source).result = .ok p) ↔
        F.failures machine policy source = []) := by
  refine ⟨fun s s' d hRun => ?_, fun d hScan => ?_, fun tokens hScan => ?_⟩
  · have hKeeps := ((Assembly.effect_wholeStatement _).of_error hRun).keeps
    obtain ⟨earlier, current, hStatement⟩ := Assembly.statement_of_error hRun
    refine ⟨Assembly.sameOutput_statement hRun, ?_⟩
    rw [hStatement]
    exact ⟨hKeeps.2.1, fun name x => SymbolTable.find?_mono hKeeps.1, rfl⟩
  · unfold assemble
    rw [hScan]
  · have hOrder : (F.states machine policy source).Pairwise
        (fun a b => b.cursor.rest <:+ a.cursor.rest.tail) := by
      rw [states_of_scan _ _ _ _ hScan]
      exact Assembly.pairwise_visits hF _ (Token.scan_lexeme_ne hScan)
    have hErrors := F.errors_run machine policy hScan
    have hFailed : F.failures machine policy source ≠ [] →
        (F.assemble machine policy source).result =
          .error (.collected (F.failures machine policy source)) := by
      intro hSome
      rw [← hErrors] at hSome ⊢
      rw [assemble_of_scan _ _ _ _ hScan]
      exact Assembly.result_finish_of_ne_nil hSome
    refine ⟨hOrder, hFailed, fun ⟨p, hp⟩ => ?_, fun hNil => ?_⟩
    · refine Classical.byContradiction fun hSome => ?_
      rw [hFailed hSome] at hp
      cases hp
    · rw [← hErrors] at hNil
      rw [assemble_of_scan _ _ _ _ hScan]
      exact ⟨_, Assembly.result_finish_of_nil hNil⟩

set_option maxRecDepth 10000 in
/-- The second item of the data is missing when its first one is already written. -/
theorem failing_statements_leave_no_output_data :
    ∃ s ∈ Mos65.family.states { features := {.base} } {} "nop\n.byte 1,\nfoo\n", ∃ s' d,
      Assembly.wholeStatement (Mos65.family.job {} "nop\n.byte 1,\nfoo\n") s = .error d s' ∧
      s'.current.output.data = [0xea, 1] ∧ s.current.output.data = [0xea] ∧
      Region.SameOutput s.regions
        (Assembly.statement (Mos65.family.job {} "nop\n.byte 1,\nfoo\n") s).regions ∧
      ∃ errors, errors.length = 2 ∧
        (Mos65.family.assemble { features := {.base} } {} "nop\n.byte 1,\nfoo\n").result =
          .error (.collected errors) := by
  have hAny : (Mos65.family.states { features := {.base} } {} "nop\n.byte 1,\nfoo\n").any (fun s =>
      (Assembly.failure? (Mos65.family.job {} "nop\n.byte 1,\nfoo\n") s).isSome &&
      decide ((Action.stateAfter (Assembly.wholeStatement
        (Mos65.family.job {} "nop\n.byte 1,\nfoo\n") s)).current.output.data = [0xea, 1]) &&
      decide (s.current.output.data = [0xea])) = true := by decide +kernel
  have hScan : (Token.scan "nop\n.byte 1,\nfoo\n").toOption.isSome = true := by decide +kernel
  have hTwo : (Mos65.family.failures { features := {.base} } {} "nop\n.byte 1,\nfoo\n").length = 2 := by
    decide +kernel
  obtain ⟨s, hs, hCheck⟩ := List.any_eq_true.mp hAny
  rw [Bool.and_eq_true, Bool.and_eq_true, decide_eq_true_eq, decide_eq_true_eq] at hCheck
  obtain ⟨⟨hFails, hAfter⟩, hBefore⟩ := hCheck
  obtain ⟨d, hd⟩ := Option.isSome_iff_exists.mp hFails
  obtain ⟨s', hRun⟩ := Assembly.failure?_eq_some hd
  rw [hRun] at hAfter
  obtain ⟨tokens, hTokens⟩ := Option.isSome_iff_exists.mp hScan
  obtain ⟨hStatement, -, hSource⟩ := failing_statements_leave_no_output { features := {.base} } {}
    "nop\n.byte 1,\nfoo\n" .mos65
  obtain ⟨-, hFailed, -⟩ := hSource tokens (Action.ok_of_toOption hTokens)
  have hSome : Mos65.family.failures { features := {.base} } {} "nop\n.byte 1,\nfoo\n" ≠ [] := by
    intro hNil
    rw [hNil] at hTwo
    cases hTwo
  exact ⟨s, hs, s', d, hRun, hAfter, hBefore, (hStatement s s' d hRun).1, _, hTwo, hFailed hSome⟩

end Family

end CrossAsm
