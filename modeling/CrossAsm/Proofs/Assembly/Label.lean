import CrossAsm.Mos65
import CrossAsm.Proofs.Assembly.Origin
import CrossAsm.Proofs.Program.Image

/-!
# CrossAsm — labels and the layout

A label is given its value when its statement starts, while the program is still growing. The value fits the
program in the end, since a region keeps its origin from then on, unless `.org` moves it while it is empty.

* `Assembly.Marks` — where a label is when its statement is done.
* `Marks.evaluate` — what it means in the end, and `Marks.load`, where its region is then.
-/

namespace CrossAsm

namespace Assembly

open CrossAsm.Action (KeepsAt)

variable {Mnemonic Mode Feature : Type} [DecidableEq Mode] [Flag Mode] [Flag Feature]
  {job : Job Mnemonic Mode Feature} {s s' : Assembly Feature}

omit [DecidableEq Mode] [Flag Mode] [Flag Feature] in
theorem not_isAt_newline_of_label? {c : Cursor} {found : String × Span} (h : c.label? = some found) :
    c.isAt .newline = false := by
  obtain ⟨name, span⟩ := found
  obtain ⟨hName, -⟩ := Cursor.label?_eq_some h
  rw [Cursor.isAt, hName]
  rfl

/-- The argument of the `.org` behind the label. -/
def originArgument? (F : Family Mnemonic Mode Feature) (s : Assembly Feature) : Option Value :=
  let c := s.cursor.behindLabel.next.next
  (Expr.parse (scopeHere { s with cursor := c } F) 0 c).result.bind fun found => found.1.value?

omit [DecidableEq Mode] [Flag Mode] [Flag Feature] in
/-- What `.org` leaves, if its argument could be read. -/
theorem opened_of_carryOut {span : Span} (h : carryOut job span .origin s = .ok () s') :
    ∃ e c v, Expr.parse (s.scopeHere job.family) 0 s.cursor = .done e c ∧ e.value? = some v ∧
      s' = opened { s with cursor := c } v span := by
  obtain ⟨v, s₁, hConstant, hOpen⟩ := Action.bind_eq_ok.mp h
  obtain ⟨e, c, hParse, hValue, rfl⟩ := constant_eq_ok hConstant
  exact ⟨e, c, v, hParse, hValue, (Action.modify_eq_ok.mp hOpen).symm⟩

omit [DecidableEq Mode] [Flag Mode] [Flag Feature] in
/-- An empty region at the new origin is current then. -/
theorem current_opened (s : Assembly Feature) (origin : Value) (span : Span) :
    (s.opened origin span).current.output.origin = some origin ∧
      (s.opened origin span).current.output.size = 0 := by
  unfold opened
  split
  · next hEmpty => exact ⟨rfl, List.length_eq_zero_iff.mpr (List.isEmpty_iff.mp hEmpty)⟩
  · exact ⟨rfl, rfl⟩

omit [DecidableEq Mode] [Flag Mode] [Flag Feature] in
/-- It is the current region if that is empty, and a new one otherwise. -/
theorem regionIndex_opened (s : Assembly Feature) (origin : Value) (span : Span)
    (h : (s.opened origin span).regionIndex = s.regionIndex) : s.current.output.size = 0 := by
  unfold opened at h
  split at h
  · next hEmpty => exact List.length_eq_zero_iff.mpr (List.isEmpty_iff.mp hEmpty)
  · simp [regionIndex] at h

/-- The label of a statement is the position `out`, and this is where the listing has the statement. -/
structure Marks (job : Job Mnemonic Mode Feature) (s s' : Assembly Feature) (name : String) (span : Span)
    (out : Section) : Prop where
  defined : s'.symbols.find? name = some ⟨name, out.positionExpr span, span⟩
  origin  : s'.current.output.origin = out.origin
  offset  : (entry job s s').offset = out.size

variable {name : String} {span : Span}

/-- A label stands where its statement starts. -/
theorem marks_of_content (hRun : wholeStatement job s = .ok () s')
    (hLabel : s.cursor.label? = some (name, span)) (hAt : atOrigin s.cursor.behindLabel = false) :
    s'.regionIndex = s.regionIndex ∧ Marks job s s' name span s.current.output := by
  obtain ⟨hParts, -⟩ := parts_of_wholeStatement hRun
  rw [parts_eq, hLabel] at hParts
  simp only [hAt, Bool.false_eq_true, if_false] at hParts
  obtain ⟨⟨⟩, s₁, hDefine, hContent⟩ := Action.bind_eq_ok.mp hParts
  obtain ⟨symbols, hSymbols, rfl⟩ := defineLabel_eq_ok.mp hDefine
  have hKeeps : KeepsAt Appends (optionalContent job)
      { s with cursor := s.cursor.behindLabel, symbols } := by
    refine (admits_appends job).keepsAt_optionalContent ?_ ?_
    · intro hOrigin
      rw [hAt] at hOrigin
      cases hOrigin
    · intro _ a
      exact (Labels.of_cursor a _).appends
  have hAppends : Appends _ s' := hKeeps.of_ok hContent
  have hIndex : s'.regionIndex = s.regionIndex := hAppends.regionIndex_eq
  refine ⟨hIndex, ?_, hAppends.encoder.origin, ?_⟩
  · exact SymbolTable.find?_mono hAppends.encoder.symbols (SymbolTable.find?_of_define hSymbols)
  · show (if s'.regionIndex = s.regionIndex then s.current.output.size else 0) = _
    rw [if_pos hIndex]

/-- A label in front of `.org` stands where the region starts that `.org` opens. -/
theorem marks_of_origin (hRun : wholeStatement job s = .ok () s')
    (hLabel : s.cursor.label? = some (name, span)) (hAt : atOrigin s.cursor.behindLabel = true) :
    ∃ v, s.originArgument? job.family = some v ∧ s'.current.output.origin = some v ∧
      s'.current.output.size = 0 ∧ Marks job s s' name span s'.current.output := by
  obtain ⟨hParts, -⟩ := parts_of_wholeStatement hRun
  rw [parts_eq, hLabel] at hParts
  simp only [hAt, if_true] at hParts
  obtain ⟨⟨⟩, s₁, hContent, hDefine⟩ := Action.bind_eq_ok.mp hParts
  rw [optionalContent_of_directive? ((Cursor.atOrigin_iff _).mp hAt)] at hContent
  obtain ⟨e, c, v, hParse, hValue, rfl⟩ := opened_of_carryOut hContent
  obtain ⟨symbols, hSymbols, rfl⟩ := defineLabel_eq_ok.mp hDefine
  obtain ⟨hOrigin, hSize⟩ := current_opened { s with cursor := c } v
    (s.cursor.behindLabel.peekAt 1).span
  refine ⟨v, ?_, hOrigin, hSize, SymbolTable.find?_of_define hSymbols, rfl, ?_⟩
  · unfold originArgument?
    dsimp only at hParse ⊢
    rw [hParse]
    exact hValue
  · refine Eq.trans ?_ hSize.symm
    exact offset_entry_eq_zero (regionIndex_opened { s with cursor := c } v _)

variable {out : Section} {n : Nat} (h : Marks job s s' name span out)
  (hRun : wholeStatement job s = .ok () s')

include h hRun

/-- The label means the same to the end of the run. -/
theorem Marks.evaluate (base : Value) (usage : Span) :
    (steps job n (statement job s)).symbols.evaluate base (.symbol name usage) =
      .ok (out.origin.getD base + Value.ofNat (entry job s s').offset) := by
  have hHere : (statement job s).symbols.find? name = some ⟨name, out.positionExpr span, span⟩ := by
    rw [statement_of_ok hRun]
    exact h.defined
  have hMore := (continues_steps job (statement job s) n).symbols
  rw [h.offset]
  exact SymbolTable.evaluate_of_position (SymbolTable.find?_mono hMore hHere) base usage

/-- The region of the label stays where the label has it. -/
theorem Marks.load (base : Value)
    (hStays : ∀ later ∈ visits job n (statement job s), later.movesRegion s'.regionIndex = false) :
    ∃ r, (steps job n (statement job s)).regions[s'.regionIndex]? = some r ∧
      r.load base = out.origin.getD base := by
  obtain ⟨r, hr, hOrigin⟩ := origin_steps hRun hStays
  exact ⟨r, hr, by rw [Region.load, hOrigin, h.origin]⟩

end Assembly

namespace Family

variable {Mnemonic Mode Feature : Type} [DecidableEq Mode] [Flag Mode] [Flag Feature]
  {F : Family Mnemonic Mode Feature} {machine : Machine Feature} {policy : Policy} {source : String}
  {p : Program}

/-- **Labels agree with the layout.** A label is a place in a region of the program, the one that the listing
has for its statement, and the image has the output of the statement there. A label in front of `.org` is the
argument of `.org`. -/
theorem label_agrees_with_layout {before after : List (Assembly Feature)} {s : Assembly Feature}
    {name : String} {span : Span} (hAssembled : (F.assemble machine policy source).result = .ok p)
    (hStates : F.states machine policy source = before ++ s :: after)
    (hLabel : s.cursor.label? = some (name, span)) (base : Value) (usage : Span) :
    ∃ entry v, p.listing[s.listing.length]? = some entry ∧
      entry.line = (F.job policy source).lineAt span.start ∧
      p.symbols.evaluate base (.symbol name usage) = .ok v ∧
      (Assembly.atOrigin s.cursor.behindLabel = true →
        s.originArgument? F = some v ∧ entry.offset = 0) ∧
      (Assembly.atOrigin s.cursor.behindLabel = false →
        entry.region = s.regionIndex ∧ entry.offset = s.current.output.size) ∧
      ((∀ later ∈ after, later.movesRegion entry.region = false) →
        (∃ r, p.regions[entry.region]? = some r ∧
          v = r.load base + Value.ofNat entry.offset) ∧
        p.Shows base v entry.region entry.offset) := by
  obtain ⟨s', n, final, hRun, hAfter, hFinal, rfl⟩ :=
    accepted_run hAssembled hStates (Assembly.not_isAt_newline_of_label? hLabel)
  obtain ⟨-, -, hSpan⟩ := Cursor.label?_eq_some hLabel
  have hMarks : ∃ out, Assembly.Marks (F.job policy source) s s' name span out ∧
      (Assembly.atOrigin s.cursor.behindLabel = true →
        ∃ v, s.originArgument? F = some v ∧ out.origin = some v ∧ out.size = 0) ∧
      (Assembly.atOrigin s.cursor.behindLabel = false →
        s'.regionIndex = s.regionIndex ∧ out = s.current.output) := by
    cases hAt : Assembly.atOrigin s.cursor.behindLabel with
    | true =>
      obtain ⟨v, hArgument, hOrigin, hSize, hMarks⟩ := Assembly.marks_of_origin hRun hLabel hAt
      exact ⟨_, hMarks, fun _ => ⟨v, hArgument, hOrigin, hSize⟩, nofun⟩
    | false =>
      obtain ⟨hIndex, hMarks⟩ := Assembly.marks_of_content hRun hLabel hAt
      exact ⟨_, hMarks, nofun, fun _ => ⟨hIndex, rfl⟩⟩
  obtain ⟨out, hMarks, hOrigin, hContent⟩ := hMarks
  subst hFinal hAfter
  refine ⟨_, _, Assembly.listing_steps hRun n, ?_, hMarks.evaluate hRun base usage, ?_, ?_, ?_⟩
  · rw [← hSpan]
    rfl
  · intro hAt
    obtain ⟨v, hArgument, hValue, hSize⟩ := hOrigin hAt
    rw [hMarks.offset, hSize, hValue, hArgument]
    exact ⟨congrArg some (Int64.add_zero v).symm, rfl⟩
  · intro hAt
    obtain ⟨hIndex, rfl⟩ := hContent hAt
    exact ⟨hIndex, hMarks.offset⟩
  · intro hStays
    obtain ⟨r, hr, hLoad⟩ := hMarks.load hRun base hStays
    rw [← hLoad]
    exact ⟨⟨r, hr, rfl⟩, Program.shows_of_load hr _⟩

set_option maxRecDepth 10000 in
/-- A relocatable label, with an `.org` behind it that opens another region. -/
theorem label_agrees_with_layout_relocatable :
    ∃ p before s after entry v,
      (Mos65.family.assemble { features := {.base} } {} "nop\nhere: rts\n.org 16\n").result = .ok p ∧
      Mos65.family.states { features := {.base} } {} "nop\nhere: rts\n.org 16\n" =
        before ++ s :: after ∧
      s.cursor.label? = some ("here", ⟨4, 4⟩) ∧
      (∀ later ∈ after, later.movesRegion 0 = false) ∧
      p.listing[s.listing.length]? = some entry ∧ entry.line = 2 ∧ entry.offset = 1 ∧
      p.symbols.evaluate 8 (.symbol "here" .zero) = .ok v ∧
      (∃ r, p.regions[entry.region]? = some r ∧ v = r.load 8 + Value.ofNat entry.offset) ∧
      p.Shows 8 v entry.region entry.offset := by
  have hSome : (Mos65.family.assemble { features := {.base} } {}
      "nop\nhere: rts\n.org 16\n").result.toOption.isSome = true := by decide +kernel
  have hThird : ((Mos65.family.states { features := {.base} } {}
      "nop\nhere: rts\n.org 16\n")[2]?.any fun s =>
        decide (s.cursor.label? = some ("here", ⟨4, 4⟩)) && decide (s.regionIndex = 0) &&
        decide (s.current.output.size = 1) && !Assembly.atOrigin s.cursor.behindLabel) = true := by
    decide +kernel
  have hStays : ∀ later ∈ (Mos65.family.states { features := {.base} } {}
      "nop\nhere: rts\n.org 16\n").drop 3, later.movesRegion 0 = false := by decide +kernel
  obtain ⟨p, hp⟩ := Option.isSome_iff_exists.mp hSome
  have hAssembled := Action.ok_of_toOption hp
  obtain ⟨s, hs, hCheck⟩ := (Option.any_eq_true _ _).mp hThird
  simp only [Bool.and_eq_true, decide_eq_true_eq, Bool.not_eq_true'] at hCheck
  obtain ⟨⟨⟨hLabel, hIndex⟩, hSize⟩, hAt⟩ := hCheck
  have hStates : Mos65.family.states { features := {.base} } {} "nop\nhere: rts\n.org 16\n" =
      (Mos65.family.states { features := {.base} } {} "nop\nhere: rts\n.org 16\n").take 2 ++ s ::
        (Mos65.family.states { features := {.base} } {} "nop\nhere: rts\n.org 16\n").drop 3 := by
    obtain ⟨hLength, rfl⟩ := List.getElem?_eq_some_iff.mp hs
    rw [← List.drop_eq_getElem_cons hLength, List.take_append_drop]
  obtain ⟨entry, v, hEntry, hLine, hValue, -, hContent, hLayout⟩ :=
    label_agrees_with_layout hAssembled hStates hLabel 8 .zero
  obtain ⟨hRegion, hOffset⟩ := hContent hAt
  rw [hIndex] at hRegion
  obtain ⟨hLoad, hShows⟩ := hLayout (by rw [hRegion]; exact hStays)
  exact ⟨p, _, s, _, entry, v, hAssembled, hStates, hLabel, hStays, hEntry,
    hLine.trans (by decide +kernel), hOffset.trans hSize, hValue, hLoad, hShows⟩

end Family

end CrossAsm
