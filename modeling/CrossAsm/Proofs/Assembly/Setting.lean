import CrossAsm.Proofs.Assembly.Failure

/-!
# CrossAsm — settings of failing statements

`.org`, `.cpu`, `.basepage` and `.synth` take effect as soon as their argument is read. Only then is it known
whether the statement gets through: tokens may be left on its line, and the label in front of `.org` may have
been defined before. The output of a statement that fails is taken back, but not what it has set.

* `Settled` — two states with the same layout of regions and the same machine.
* `setting?` — what a statement sets, and where its argument ends.
* `settled_of_not_setting`, `settled_of_setting` — a statement sets that and nothing else, also if it fails.
* `statement_settles_by_setting` — so a failing statement keeps layout and machine unless it is one of the four
  directives, read to the end of its argument.
-/

namespace CrossAsm

namespace Assembly

open CrossAsm.Action (Keeps KeepsAt)

variable {Mnemonic Mode Feature : Type}

-- --------
-- Layout and machine
-- --------

/-- The origin of each region and the place in the source that it was opened at. -/
def layout (s : Assembly Feature) : List (Option Value × Span) :=
  s.regions.map fun r => (r.output.origin, r.span)

/-- Both states have the same layout and the same machine. -/
structure Settled (a b : Assembly Feature) : Prop where
  layout  : b.layout = a.layout
  machine : b.machine = a.machine

theorem Settled.trans {a b c : Assembly Feature} (hab : Settled a b) (hbc : Settled b c) : Settled a c :=
  ⟨hbc.layout.trans hab.layout, hbc.machine.trans hab.machine⟩

instance : Std.Refl (@Settled Feature) where
  refl _ := ⟨rfl, rfl⟩

instance : Trans (@Settled Feature) Settled Settled where
  trans := Settled.trans

/-- What is written to a region does not move it. -/
theorem admitsWriting_settled [DecidableEq Mode] [Flag Mode] (job : Job Mnemonic Mode Feature) :
    AdmitsWriting (fun _ => True) job (@Settled Feature) where
  read _ := ⟨rfl, rfl⟩
  define _ _ := ⟨rfl, rfl⟩
  operands _ := ⟨rfl, rfl⟩
  encode {s e} h := by
    have hOrigin : e.output.origin = s.current.output.origin := h.origin
    refine ⟨?_, rfl⟩
    simp [Assembly.layout, regions, withEncoder, hOrigin]

theorem settled_rollback (s : Assembly Feature) (region : Nat) (c : Section.Checkpoint) :
    Settled s (s.rollback region c) := by
  unfold rollback
  dsimp only
  split
  · refine ⟨?_, rfl⟩
    simp [Assembly.layout, regions, Section.rollback]
  · refine ⟨?_, rfl⟩
    simp only [Assembly.layout, regions, List.map_append]
    congr 1
    apply List.ext_getElem?
    intro i
    simp only [List.getElem?_map, List.getElem?_modify]
    cases s.earlier[i]? with
    | none => rfl
    | some r =>
      simp only [Option.map_some]
      split <;> rfl

-- --------
-- Settings
-- --------

/-- What a directive sets: the address at which output goes on, or the machine. -/
inductive Setting (Feature : Type) where
  | origin (address : Value) (span : Span)
  | machine (machine : Machine Feature)

/-- The state with the setting. -/
def Setting.apply : Setting Feature → Assembly Feature → Assembly Feature
  | .origin address span, s => s.opened address span
  | .machine m, s => { s with machine := m }

theorem Setting.settled_apply (a : Setting Feature) (s : Assembly Feature) (symbols : SymbolTable)
    (c : Cursor) : Settled (a.apply s) (a.apply { s with symbols, cursor := c }) := by
  cases a with
  | origin address span =>
    unfold Setting.apply opened
    dsimp only
    split <;> exact ⟨rfl, rfl⟩
  | machine machine => exact ⟨rfl, rfl⟩

/-- A setting leaves the symbols and the cursor as they are. -/
theorem Setting.apply_eq (a : Setting Feature) (s : Assembly Feature) :
    (a.apply s).symbols = s.symbols ∧ (a.apply s).cursor = s.cursor := by
  cases a with
  | origin address span =>
    obtain ⟨earlier, current, h⟩ := opened_eq s address span
    rw [Setting.apply, h]
    exact ⟨rfl, rfl⟩
  | machine machine => exact ⟨rfl, rfl⟩

/-- The argument of a directive at the cursor, if it has a known value from `low` to `high`, and the cursor
behind it. -/
def argument? (job : Job Mnemonic Mode Feature) (low high : Value) (s : Assembly Feature) :
    Option (Value × Cursor) :=
  match Expr.parse (s.scopeHere job.family) 0 s.cursor with
  | ⟨some (e, c), []⟩ => (e.value?.filter (·.within low high)).map (·, c)
  | _ => none

/-- What the directive whose name stands at `span` sets, if its argument is there and can be used, with the
cursor behind the argument. -/
def directiveSetting? (job : Job Mnemonic Mode Feature) (span : Span) (s : Assembly Feature) :
    Directive → Option (Setting Feature × Cursor)
  | .origin =>
    (argument? job 0 job.family.highestAddress s).map fun (address, c) => (.origin address span, c)
  | .data _ => none
  | .cpu =>
    ((cpuName? s.cursor.peek.lexeme).bind job.family.cpu?).map fun features =>
      (.machine { s.machine with features }, s.cursor.next)
  | .basePage =>
    (argument? job 0 0xff s).map fun (basePage, c) => (.machine { s.machine with basePage }, c)
  | .synthesis =>
    match s.cursor.peek.lexeme.name?.map Text.lower with
    | some "on" => some (.machine { s.machine with synthesis := true }, s.cursor.next)
    | some "off" => some (.machine { s.machine with synthesis := false }, s.cursor.next)
    | _ => none

section CarryOut

variable (job : Job Mnemonic Mode Feature) (span : Span) (s : Assembly Feature) (d : Directive)

theorem expression_cases :
    (∃ e c, Expr.parse (s.scopeHere job.family) 0 s.cursor = .done e c ∧
      expression job s = .ok e { s with cursor := c }) ∨
    (∀ e c, Expr.parse (s.scopeHere job.family) 0 s.cursor ≠ .done e c) ∧
      ∃ d, expression job s = .error d s := by
  unfold expression
  rw [Action.bind_of_ok (Action.get_eq_ok.mpr ⟨rfl, rfl⟩)]
  have hScope : s.scopeHere job.family =
    ⟨s.symbols, s.current.output.positionExpr s.cursor.peek.span, job.family.isReserved⟩ := rfl
  rw [hScope]
  generalize Expr.parse ⟨s.symbols, _, job.family.isReserved⟩ 0 s.cursor = outcome
  obtain ⟨_ | ⟨e, c⟩, _ | ⟨d, ds⟩⟩ := outcome
  · exact .inr ⟨nofun, _, rfl⟩
  · exact .inr ⟨nofun, _, rfl⟩
  · exact .inl ⟨e, c, rfl, rfl⟩
  · exact .inr ⟨nofun, _, rfl⟩

theorem constant_cases (kind : String) (low high : Value) :
    (∃ v c, argument? job low high s = some (v, c) ∧
      constant job kind low high s = .ok v { s with cursor := c }) ∨
    argument? job low high s = none ∧
      ∃ e c, constant job kind low high s = .error e { s with cursor := c } := by
  unfold argument? constant
  rcases expression_cases job s with ⟨e, c, hParse, hRun⟩ | ⟨hParse, d, hRun⟩
  · rw [hParse, Action.bind_of_ok hRun]
    cases hValue : e.value? with
    | none => exact .inr ⟨by simp [Outcome.done, hValue], _, c, rfl⟩
    | some v =>
      cases hRange : v.within low high with
      | true =>
        have hCheck : e.checkRange low high = .ok e := by simp [Expr.checkRange, hValue, hRange]
        refine .inl ⟨v, c, by simp [Outcome.done, hValue, hRange], ?_⟩
        simp only [hCheck]
        rfl
      | false =>
        have hCheck : e.checkRange low high = .error (.valueOutOfRange v low high e.span) := by
          simp [Expr.checkRange, hValue, hRange]
        refine .inr ⟨by simp [Outcome.done, hValue, hRange], .valueOutOfRange v low high e.span, c, ?_⟩
        simp only [hCheck]
        rfl
  · refine .inr ⟨?_, d, s.cursor, Action.bind_of_error hRun _⟩
    split
    · next e c hDone => exact absurd hDone (hParse e c)
    · rfl

variable [DecidableEq Mode] [Flag Mode]

/-- A directive sets what it is to set, or nothing. -/
theorem carryOut_cases :
    (∃ a c, directiveSetting? job span s d = some (a, c) ∧
      carryOut job span d s = .ok () (a.apply { s with cursor := c })) ∨
    directiveSetting? job span s d = none ∧ Settled s (Action.stateAfter (carryOut job span d s)) := by
  cases d with
  | origin =>
    rcases constant_cases job s "origin" 0 job.family.highestAddress with
      ⟨address, c, hArgument, hRun⟩ | ⟨hArgument, e, c, hRun⟩
    · refine .inl ⟨.origin address span, c, ?_, Action.bind_of_ok hRun _⟩
      simp only [directiveSetting?, hArgument, Option.map_some]
    · have hCarry : carryOut job span .origin s = .error e { s with cursor := c } :=
        Action.bind_of_error hRun _
      refine .inr ⟨by simp only [directiveSetting?, hArgument, Option.map_none], ?_⟩
      rw [hCarry]
      exact ⟨rfl, rfl⟩
  | data w =>
    exact .inr ⟨rfl, keeps_look.bind (fun c => (admitsWriting_settled job).keeps_data w _) s⟩
  | cpu =>
    have hCarry : carryOut job span .cpu s = selectCpu job s := rfl
    rw [hCarry]
    unfold selectCpu
    rw [Action.bind_of_ok (advance_eq s)]
    cases hName : cpuName? s.cursor.peek.lexeme with
    | none => exact .inr ⟨by simp [directiveSetting?, hName], ⟨rfl, rfl⟩⟩
    | some name =>
      cases hCpu : job.family.cpu? name with
      | none =>
        refine .inr ⟨by simp [directiveSetting?, hName, hCpu], ?_⟩
        simp only [hCpu]
        exact ⟨rfl, rfl⟩
      | some features =>
        refine .inl ⟨.machine { s.machine with features }, s.cursor.next, ?_, ?_⟩
        · simp [directiveSetting?, hName, hCpu]
        · simp only [hCpu]
          rfl
  | basePage =>
    rcases constant_cases job s "base page" 0 0xff with
      ⟨basePage, c, hArgument, hRun⟩ | ⟨hArgument, e, c, hRun⟩
    · refine .inl ⟨.machine { s.machine with basePage }, c, ?_, Action.bind_of_ok hRun _⟩
      simp only [directiveSetting?, hArgument, Option.map_some]
    · have hCarry : carryOut job span .basePage s = .error e { s with cursor := c } :=
        Action.bind_of_error hRun _
      refine .inr ⟨by simp only [directiveSetting?, hArgument, Option.map_none], ?_⟩
      rw [hCarry]
      exact ⟨rfl, rfl⟩
  | synthesis =>
    have hCarry : carryOut job span .synthesis s = setSynthesis s := rfl
    rw [hCarry]
    unfold setSynthesis
    rw [Action.bind_of_ok (advance_eq s)]
    generalize hWord : s.cursor.peek.lexeme.name?.map Text.lower = word
    split
    · refine .inl ⟨.machine { s.machine with synthesis := true }, s.cursor.next, ?_, rfl⟩
      simp only [directiveSetting?, hWord]
    · refine .inl ⟨.machine { s.machine with synthesis := false }, s.cursor.next, ?_, rfl⟩
      simp only [directiveSetting?, hWord]
    · next hOn hOff =>
      refine .inr ⟨?_, ⟨rfl, rfl⟩⟩
      simp only [directiveSetting?, hWord]

end CarryOut

-- --------
-- The directive of a statement
-- --------

/-- The label that is defined behind its directive, which is `.org`. -/
def originLabel? (s : Assembly Feature) : Option (String × Span) :=
  if atOrigin s.cursor.behindLabel then s.cursor.label? else none

/-- Whether `.org` has a label that is defined already. -/
def relabelsOrigin (s : Assembly Feature) : Bool :=
  s.originLabel?.any fun found => (s.symbols.find? found.1).isSome

/-- The symbols when the directive of a statement is carried out: any other label is defined first. -/
def symbolsHere? (s : Assembly Feature) : Option SymbolTable :=
  if atOrigin s.cursor.behindLabel then some s.symbols
  else
    match s.cursor.label? with
    | none => some s.symbols
    | some (name, span) =>
      (s.symbols.define name (s.current.output.positionExpr span) span).toOption

/-- What the statement sets, with the cursor behind the argument that says so. -/
def setting? (job : Job Mnemonic Mode Feature) (s : Assembly Feature) : Option (Setting Feature × Cursor) :=
  s.cursor.behindLabel.directive?.bind fun d =>
    s.symbolsHere?.bind fun symbols =>
      directiveSetting? job (s.cursor.behindLabel.peekAt 1).span
        { s with symbols, cursor := s.cursor.behindLabel.next.next } d

/-- What is left of a statement behind its directive. -/
def nameOrigin (s : Assembly Feature) : Assemble Feature Unit :=
  match s.originLabel? with
  | some (name, span) => defineLabel name span
  | none => pure ()

theorem keeps_nameOrigin {R : Assembly Feature → Assembly Feature → Prop} [Std.Refl R] [Trans R R R]
    (hR : AdmitsReading (fun _ => True) R) (s : Assembly Feature) : Keeps R s.nameOrigin := by
  unfold nameOrigin
  split
  · exact hR.keeps_defineLabel trivial _
  · exact .pure ()

variable [DecidableEq Mode] [Flag Mode] [Flag Feature] (job : Job Mnemonic Mode Feature)

/-- The parts of a statement with a directive, in the order in which they are carried out. -/
theorem parts_of_directive {s : Assembly Feature} {d : Directive}
    (hDirective : s.cursor.behindLabel.directive? = some d) :
    (s.symbolsHere? = none ∧ ∃ e, parts job s = .error e { s with cursor := s.cursor.behindLabel }) ∨
    ∃ symbols, s.symbolsHere? = some symbols ∧
      parts job s =
        (carryOut job (s.cursor.behindLabel.peekAt 1).span d >>= fun _ => s.nameOrigin)
          { s with symbols, cursor := s.cursor.behindLabel.next.next } := by
  have hContent : ∀ symbols,
      optionalContent job { s with symbols, cursor := s.cursor.behindLabel } =
        carryOut job (s.cursor.behindLabel.peekAt 1).span d
          { s with symbols, cursor := s.cursor.behindLabel.next.next } :=
    fun symbols => optionalContent_of_directive? hDirective
  rw [parts_eq]
  unfold symbolsHere? nameOrigin originLabel?
  cases hAt : atOrigin s.cursor.behindLabel with
  | true =>
    refine .inr ⟨s.symbols, by simp, ?_⟩
    cases hLabel : s.cursor.label? with
    | none =>
      simp only [if_true]
      rw [bind_pure_unit]
      exact hContent s.symbols
    | some found =>
      simp only [if_true]
      show EStateM.bind _ _ _ = EStateM.bind _ _ _
      unfold EStateM.bind
      rw [hContent s.symbols]
  | false =>
    cases hLabel : s.cursor.label? with
    | none =>
      refine .inr ⟨s.symbols, by simp, ?_⟩
      simp only [Bool.false_eq_true, if_false]
      rw [bind_pure_unit]
      exact hContent s.symbols
    | some found =>
      obtain ⟨name, span⟩ := found
      simp only [Bool.false_eq_true, if_false]
      cases hDefine : s.symbols.define name (s.current.output.positionExpr span) span with
      | error e =>
        have hFails : defineLabel name span { s with cursor := s.cursor.behindLabel } =
            .error e { s with cursor := s.cursor.behindLabel } := defineLabel_of_error hDefine
        exact .inl ⟨rfl, e, Action.bind_of_error hFails _⟩
      | ok symbols =>
        have hDone : defineLabel name span { s with cursor := s.cursor.behindLabel } =
            .ok () { s with symbols, cursor := s.cursor.behindLabel } :=
          defineLabel_eq_ok.mpr ⟨symbols, hDefine, rfl⟩
        refine .inr ⟨symbols, rfl, ?_⟩
        rw [Action.bind_of_ok hDone, bind_pure_unit]
        exact hContent symbols

/-- Listing a statement, or taking back its output, changes no setting. -/
theorem settled_statement (s : Assembly Feature) :
    Settled (Action.stateAfter (wholeStatement job s)) (statement job s) := by
  unfold statement
  dsimp only
  cases wholeStatement job s with
  | ok u s' => exact ⟨rfl, rfl⟩
  | error d s' =>
    have h := settled_rollback s' s.regionIndex s.current.output.checkpoint
    exact ⟨h.layout, h.machine⟩

variable {job} {s : Assembly Feature}

-- --------
-- Statements
-- --------

/-- **A statement that sets nothing** keeps layout and machine, whether it fails or not. -/
theorem settled_of_not_setting (h : setting? job s = none) :
    Settled s (Action.stateAfter (wholeStatement job s)) := by
  have hR := admitsWriting_settled job
  cases hDirective : s.cursor.behindLabel.directive? with
  | none =>
    refine hR.wholeStatement (.any s.cursor) ?_ ?_ fun _ _ => ⟨rfl, rfl⟩
    · intro hAt
      rw [(Cursor.atOrigin_iff _).mp hAt] at hDirective
      cases hDirective
    · intro hSets
      rw [hDirective] at hSets
      cases hSets
  | some d =>
    refine Settled.trans ?_ (after_parts job s)
    rcases parts_of_directive job hDirective with ⟨-, e, hParts⟩ | ⟨symbols, hHere, hParts⟩
    · rw [hParts]
      exact ⟨rfl, rfl⟩
    · have hNone : directiveSetting? job (s.cursor.behindLabel.peekAt 1).span
          { s with symbols, cursor := s.cursor.behindLabel.next.next } d = none := by
        simpa [setting?, hDirective, hHere] using h
      rcases carryOut_cases job _ _ d with ⟨a, c, hSome, -⟩ | ⟨-, hKept⟩
      · rw [hNone] at hSome
        cases hSome
      · rw [hParts]
        have hStart : Settled s { s with symbols, cursor := s.cursor.behindLabel.next.next } := ⟨rfl, rfl⟩
        refine (hStart.trans hKept).trans ?_
        exact Keeps.after_bind (fun _ => keeps_nameOrigin hR.toAdmitsReading s) _ _

variable {a : Setting Feature} {c : Cursor}

/-- A statement that sets something has only a label in front of `.org` left to define. -/
theorem parts_of_setting (h : setting? job s = some (a, c)) :
    ∃ symbols, s.symbolsHere? = some symbols ∧
      parts job s = s.nameOrigin (a.apply { s with symbols, cursor := c }) := by
  obtain ⟨d, hDirective, h⟩ := Option.bind_eq_some_iff.mp h
  obtain ⟨symbols, hHere, h⟩ := Option.bind_eq_some_iff.mp h
  refine ⟨symbols, hHere, ?_⟩
  rcases parts_of_directive job hDirective with ⟨hNone, -⟩ | ⟨symbols', hHere', hParts⟩
  · rw [hNone] at hHere
    cases hHere
  · obtain rfl := Option.some.inj (hHere'.symm.trans hHere)
    rcases carryOut_cases job _ _ d with ⟨a', c', hSome, hCarry⟩ | ⟨hNone, -⟩
    · obtain ⟨rfl, rfl⟩ := Prod.mk.inj (Option.some.inj (hSome.symm.trans h))
      rw [hParts, Action.bind_of_ok hCarry]
    · rw [hNone] at h
      cases h

/-- **A statement that sets something** changes layout and machine by that and no more, whether it fails or
not. -/
theorem settled_of_setting (h : setting? job s = some (a, c)) :
    Settled (a.apply s) (Action.stateAfter (wholeStatement job s)) := by
  obtain ⟨symbols, -, hParts⟩ := parts_of_setting h
  refine Settled.trans ?_ (after_parts job s)
  rw [hParts]
  exact (a.settled_apply s symbols c).trans
    (keeps_nameOrigin (admitsWriting_settled job).toAdmitsReading s _)

omit [DecidableEq Mode] [Flag Mode] [Flag Feature] in
/-- The label in front of `.org` can be defined unless it has a definition. -/
theorem nameOrigin_cases {b : Assembly Feature}
    (hSymbols : atOrigin s.cursor.behindLabel = true → b.symbols = s.symbols) :
    (s.relabelsOrigin = true ∧ ∃ e, s.nameOrigin b = .error e b) ∨
    s.relabelsOrigin = false ∧ ∃ symbols, s.nameOrigin b = .ok () { b with symbols } := by
  unfold relabelsOrigin nameOrigin originLabel?
  cases hAt : atOrigin s.cursor.behindLabel with
  | false => exact .inr ⟨rfl, b.symbols, rfl⟩
  | true =>
    cases hLabel : s.cursor.label? with
    | none => exact .inr ⟨rfl, b.symbols, rfl⟩
    | some found =>
      obtain ⟨name, span⟩ := found
      simp only [if_true, Option.any_some, ← hSymbols hAt]
      cases hFind : b.symbols.find? name with
      | some old =>
        refine .inl ⟨rfl, .redefinedSymbol name span old.definition, defineLabel_of_error ?_⟩
        simp only [SymbolTable.define, hFind]
      | none =>
        have hDefine : ∃ symbols,
            b.symbols.define name (b.current.output.positionExpr span) span = .ok symbols := by
          simp [SymbolTable.define, hFind]
        obtain ⟨symbols, hDefine⟩ := hDefine
        exact .inr ⟨rfl, symbols, defineLabel_eq_ok.mpr ⟨symbols, hDefine, rfl⟩⟩

/-- A statement whose parts got through fails exactly if its line goes on. -/
theorem wholeStatement_of_parts {s' : Assembly Feature} (h : parts job s = .ok () s') :
    (∃ d s₁, wholeStatement job s = .error d s₁) ↔ s'.cursor.atStatementEnd = false := by
  unfold wholeStatement
  rw [Action.bind_of_ok h, Action.bind_of_ok (look_eq_ok.mpr ⟨rfl, rfl⟩)]
  cases s'.cursor.atStatementEnd with
  | true =>
    show (∃ d s₁, EStateM.Result.ok () s' = .error d s₁) ↔ _
    simp
  | false =>
    show (∃ d s₁, EStateM.Result.error _ s' = .error d s₁) ↔ _
    simp

/-- What fails a statement that has set something. -/
theorem fails_iff_of_setting (h : setting? job s = some (a, c)) :
    (∃ d s', wholeStatement job s = .error d s') ↔
      c.atStatementEnd = false ∨ s.relabelsOrigin = true := by
  obtain ⟨symbols, hHere, hParts⟩ := parts_of_setting h
  have hKept := a.apply_eq { s with symbols, cursor := c }
  have hSymbols : atOrigin s.cursor.behindLabel = true →
      (a.apply { s with symbols, cursor := c }).symbols = s.symbols := by
    intro hAt
    unfold symbolsHere? at hHere
    rw [if_pos hAt] at hHere
    rw [hKept.1]
    exact (Option.some.inj hHere).symm
  rcases nameOrigin_cases hSymbols with ⟨hOld, e, hFails⟩ | ⟨hNew, symbols', hDone⟩
  · rw [hFails] at hParts
    have hWhole : wholeStatement job s = .error e _ := Action.bind_of_error hParts _
    exact ⟨fun _ => .inr hOld, fun _ => ⟨e, _, hWhole⟩⟩
  · rw [hDone] at hParts
    rw [wholeStatement_of_parts hParts, hNew]
    simp [hKept.2]

/-- **A failing statement keeps layout and machine unless it has set something.** What a statement sets, it sets
for good: `.org`, `.cpu`, `.basepage` and `.synth` take effect before it is known whether anything else stands on
their line, and `.org` before its label is defined. -/
theorem statement_settles_by_setting (job : Job Mnemonic Mode Feature) (s : Assembly Feature) :
    (setting? job s = none → Settled s (statement job s)) ∧
    ∀ a c, setting? job s = some (a, c) →
      Settled (a.apply s) (statement job s) ∧
      ((∃ d s', wholeStatement job s = .error d s') ↔
        c.atStatementEnd = false ∨ s.relabelsOrigin = true) := by
  refine ⟨fun hNone => ?_, fun a c hSome => ⟨?_, fails_iff_of_setting hSome⟩⟩
  · exact (settled_of_not_setting hNone).trans (settled_statement job s)
  · exact (settled_of_setting hSome).trans (settled_statement job s)

set_option maxRecDepth 10000 in
/-- The label in front of `.org` is taken, so the statement fails when its line is read, and the region stays. -/
theorem statement_settles_by_setting_label :
    ∃ s ∈ Mos65.family.states { features := {.base} } {} "a: nop\na: .org 5\n", ∃ a c,
      setting? (Mos65.family.job {} "a: nop\na: .org 5\n") s = some (a, c) ∧ c.atStatementEnd = true ∧
        (∃ d s', wholeStatement (Mos65.family.job {} "a: nop\na: .org 5\n") s = .error d s') ∧
        Settled (a.apply s) (statement (Mos65.family.job {} "a: nop\na: .org 5\n") s) := by
  have hAny : (Mos65.family.states { features := {.base} } {} "a: nop\na: .org 5\n").any (fun s =>
      (setting? (Mos65.family.job {} "a: nop\na: .org 5\n") s).any (fun found => found.2.atStatementEnd) &&
        s.relabelsOrigin) = true := by decide +kernel
  obtain ⟨s, hs, hCheck⟩ := List.any_eq_true.mp hAny
  rw [Bool.and_eq_true, Option.any_eq_true] at hCheck
  obtain ⟨⟨⟨a, c⟩, hSetting, hEnd⟩, hLabel⟩ := hCheck
  obtain ⟨hSettled, hFails⟩ := (statement_settles_by_setting _ s).2 a c hSetting
  exact ⟨s, hs, a, c, hSetting, hEnd, hFails.mpr (.inr hLabel), hSettled⟩

/-- A failing statement among the states of a run, found by going through them. -/
theorem exists_failing {states : List (Assembly Feature)} {P : Assembly Feature → Prop} [DecidablePred P]
    (h : states.any (fun s => (failure? job s).isSome && decide (P s)) = true) :
    ∃ s ∈ states, ∃ d s', wholeStatement job s = .error d s' ∧ P s := by
  obtain ⟨s, hs, hCheck⟩ := List.any_eq_true.mp h
  rw [Bool.and_eq_true, decide_eq_true_eq] at hCheck
  obtain ⟨d, hd⟩ := Option.isSome_iff_exists.mp hCheck.1
  obtain ⟨s', hRun⟩ := failure?_eq_some hd
  exact ⟨s, hs, d, s', hRun, hCheck.2⟩

set_option maxRecDepth 10000 in
/-- Of two directives with a token too many, one leaves a region behind and the other another base page. -/
theorem failing_directives_take_effect :
    (∃ s ∈ Mos65.family.states { features := {.base} } {} "nop\n.org 5 x\n.basepage *\n", ∃ d s',
      wholeStatement (Mos65.family.job {} "nop\n.org 5 x\n.basepage *\n") s = .error d s' ∧
        s.layout = [(none, .zero)] ∧
        (statement (Mos65.family.job {} "nop\n.org 5 x\n.basepage *\n") s).layout =
          [(none, .zero), (some 5, ⟨5, 3⟩)]) ∧
    ∃ s ∈ Mos65.family.states { features := {.base} } {} ".basepage 5 6\nstx $512,y\n", ∃ d s',
      wholeStatement (Mos65.family.job {} ".basepage 5 6\nstx $512,y\n") s = .error d s' ∧
        s.machine.basePage = 0 ∧
        (statement (Mos65.family.job {} ".basepage 5 6\nstx $512,y\n") s).machine.basePage = 5 :=
  ⟨exists_failing (by decide +kernel), exists_failing (by decide +kernel)⟩

end Assembly

end CrossAsm
