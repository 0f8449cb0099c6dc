import CrossAsm.Proofs.Assembly.Frame

/-!
# CrossAsm — a run only adds

What a run has written stays in place: regions are continued and new ones come behind them, and errors
are never forgotten.

* `effect_wholeStatement`: a statement appends to the current region, or opens another one and no more.
* `continues_statement`: so it only adds, since taking back its output takes back nothing else.
* `continues_steps`: so does any number of steps.
-/

namespace CrossAsm.Assembly

open CrossAsm.Action (Keeps KeepsAt)

variable {Mnemonic Mode Feature : Type}

-- --------
-- What a statement does
-- --------

/-- `b` goes on from `a` in the same region, in the same list of statements. -/
structure Appends (a b : Assembly Feature) : Prop where
  encoder : a.encoder.Continues b.encoder
  earlier : b.earlier = a.earlier
  span    : b.current.span = a.current.span
  listing : b.listing = a.listing
  errors  : b.errors = a.errors

instance : Std.Refl (@Appends Feature) where
  refl s := ⟨Std.Refl.refl s.encoder, rfl, rfl, rfl, rfl⟩

instance : Trans (@Appends Feature) Appends Appends where
  trans hab hbc :=
    ⟨Trans.trans hab.encoder hbc.encoder, hbc.earlier.trans hab.earlier, hbc.span.trans hab.span,
      hbc.listing.trans hab.listing, hbc.errors.trans hab.errors⟩

theorem Appends.regionIndex_eq {a b : Assembly Feature} (h : Appends a b) : b.regionIndex = a.regionIndex := by
  rw [regionIndex, regionIndex, h.earlier]

/-- `b` differs from `a` in its symbols and in what is still to be read. -/
def Relabels (a b : Assembly Feature) : Prop := ∃ symbols c, b = { a with symbols, cursor := c }

/-- `b` differs from `a` in symbols that were added and in what is still to be read. -/
structure Labels (a b : Assembly Feature) : Prop where
  same    : Relabels a b
  symbols : a.symbols.symbols <+: b.symbols.symbols

theorem Labels.of_cursor (s : Assembly Feature) (c : Cursor) : Labels s { s with cursor := c } :=
  ⟨⟨s.symbols, c, rfl⟩, List.prefix_rfl⟩

instance : Std.Refl (@Labels Feature) where
  refl s := .of_cursor s s.cursor

instance : Trans (@Labels Feature) Labels Labels where
  trans := by
    rintro a b c ⟨⟨t, c₁, rfl⟩, h⟩ ⟨⟨t', c₂, rfl⟩, h'⟩
    exact ⟨⟨t', c₂, rfl⟩, h.trans h'⟩

theorem Labels.appends {a b : Assembly Feature} (h : Labels a b) : Appends a b := by
  obtain ⟨⟨symbols, c, rfl⟩, hSymbols⟩ := h
  exact ⟨.of_output_eq rfl hSymbols, rfl, rfl, rfl, rfl⟩

theorem admitsReading_labels : AdmitsReading (fun _ => True) (@Labels Feature) where
  read {s c} _ := .of_cursor s c
  define {s _ _ _ symbols} _ h := ⟨⟨symbols, s.cursor, rfl⟩, SymbolTable.prefix_of_define h⟩

/-- Which region is opened depends on the output alone. -/
theorem Labels.opened {a b : Assembly Feature} (h : Labels a b) (origin : Value) (span : Span) :
    Labels (a.opened origin span) (b.opened origin span) := by
  obtain ⟨⟨symbols, c, rfl⟩, hSymbols⟩ := h
  unfold Assembly.opened
  dsimp only
  split
  · exact ⟨⟨symbols, c, rfl⟩, hSymbols⟩
  · exact ⟨⟨symbols, c, rfl⟩, hSymbols⟩

/-- What becomes of `s` in a statement, also in one that fails. -/
inductive Effect (s : Assembly Feature) : Assembly Feature → Prop
  /-- The statement appends to the current region. -/
  | appends {s' : Assembly Feature} (h : Appends s s') : Effect s s'
  /-- `.org` opens a region and writes nothing there. -/
  | opens {s' : Assembly Feature} (hAt : atOrigin s.cursor.behindLabel = true) (origin : Value)
      (span : Span) (h : Labels (s.opened origin span) s') : Effect s s'

section

variable [DecidableEq Mode] [Flag Mode] (job : Job Mnemonic Mode Feature)

theorem admits_appends : Admits job Appends where
  read _ := (Labels.of_cursor _ _).appends
  define hName h := (admitsReading_labels.define hName h).appends
  operands _ := (Labels.of_cursor _ _).appends
  machine s _ := ⟨Std.Refl.refl s.encoder, rfl, rfl, rfl, rfl⟩
  encode h := ⟨⟨h.output, h.origin, h.wellFormed, h.symbols⟩, rfl, rfl, rfl, rfl⟩

variable [Flag Feature]

omit [DecidableEq Mode] [Flag Mode] [Flag Feature] in
/-- A region is opened if the address could be read. -/
theorem labels_carryOut_origin (span : Span) (s : Assembly Feature) :
    Labels s (Action.stateAfter (carryOut job span .origin s)) ∨
      ∃ origin, Labels (s.opened origin span) (Action.stateAfter (carryOut job span .origin s)) := by
  have hConstant := admitsReading_labels.keeps_constant job "origin" 0 job.family.highestAddress
  show Labels s (Action.stateAfter ((constant job _ _ _ >>= fun o => openRegion o span) s)) ∨
    ∃ origin, Labels _ (Action.stateAfter ((constant job _ _ _ >>= fun o => openRegion o span) s))
  cases hRun : constant job "origin" 0 job.family.highestAddress s with
  | error d s₁ =>
    rw [Action.bind_of_error hRun]
    exact .inl (hConstant.of_error hRun)
  | ok origin s₁ =>
    rw [Action.bind_of_ok hRun]
    exact .inr ⟨origin, (hConstant.of_ok hRun).opened origin span⟩

/-- **What a statement does** to the output. -/
theorem effect_wholeStatement : Keeps Effect (wholeStatement job) := by
  intro s
  cases hAt : atOrigin s.cursor.behindLabel with
  | false =>
    refine .appends ((admits_appends job).wholeStatement ?_ ?_)
    · intro hOrigin
      rw [hAt] at hOrigin
      cases hOrigin
    · intro _ a
      exact (Labels.of_cursor a _).appends
  | true =>
    have hParts : Labels
        (Action.stateAfter (optionalContent job { s with cursor := s.cursor.behindLabel }))
        (Action.stateAfter (parts job s)) := by
      rw [parts_eq]
      split
      · exact Std.Refl.refl _
      · next name span hLabel =>
        rw [if_pos hAt]
        exact Keeps.after_bind (fun _ => admitsReading_labels.keeps_defineLabel trivial span) _ _
    have hWhole : Labels (Action.stateAfter (parts job s))
        (Action.stateAfter (wholeStatement job s)) := after_parts job s
    have hRest : Labels _ _ := Trans.trans hParts hWhole
    rw [optionalContent_of_directive? ((Cursor.atOrigin_iff _).mp hAt)] at hRest
    have hRead := Labels.of_cursor s s.cursor.behindLabel.next.next
    rcases labels_carryOut_origin job (s.cursor.behindLabel.peekAt 1).span
      { s with cursor := s.cursor.behindLabel.next.next } with hOut | ⟨origin, hOut⟩
    · have hAll : Labels _ _ := Trans.trans (Trans.trans hRead hOut) hRest
      exact .appends hAll.appends
    · have hAll : Labels _ _ := Trans.trans (Trans.trans (hRead.opened origin _) hOut) hRest
      exact .opens hAt origin _ hAll

end

-- --------
-- Growth
-- --------

/-- The regions are those in front and the current one. -/
theorem getElem?_regions_eq_some {s : Assembly Feature} {i : Nat} {r : Region} :
    s.regions[i]? = some r ↔ s.earlier[i]? = some r ∨ i = s.regionIndex ∧ r = s.current := by
  unfold regions regionIndex
  rcases Nat.lt_trichotomy i s.earlier.length with hLt | rfl | hGt
  · rw [List.getElem?_append_left hLt]
    exact ⟨.inl, fun h => h.elim id fun h => absurd h.1 (Nat.ne_of_lt hLt)⟩
  · simp [eq_comm]
  · have hLength : (s.earlier ++ [s.current]).length ≤ i := by
      rw [List.length_append, List.length_singleton]
      omega
    rw [List.getElem?_eq_none hLength, List.getElem?_eq_none (Nat.le_of_lt hGt)]
    simp only [reduceCtorEq, false_or, false_iff]
    exact fun h => absurd h.1 (Nat.ne_of_gt hGt)

theorem getElem?_regions_regionIndex (s : Assembly Feature) :
    s.regions[s.regionIndex]? = some s.current :=
  getElem?_regions_eq_some.mpr (.inr ⟨rfl, rfl⟩)

/-- All regions are well-formed. -/
def WellFormed (s : Assembly Feature) : Prop := ∀ r ∈ s.regions, r.output.WellFormed

/-- What `a` has noted, `b` has noted first. -/
structure Records (a b : Assembly Feature) : Prop where
  errors  : a.errors <+: b.errors
  symbols : a.symbols.symbols <+: b.symbols.symbols
  listing : a.listing <+: b.listing

/-- Every region of `a` is continued by the region of `b` with the same index, and nothing noted in `a`
is missing in `b`. -/
structure Continues (a b : Assembly Feature) : Prop extends Records a b where
  regions    : ∀ (i : Nat) (r : Region), a.regions[i]? = some r →
                 ∃ r', b.regions[i]? = some r' ∧ r.output.Extends r'.output
  wellFormed : a.WellFormed → b.WellFormed

theorem Records.of_eq {a b : Assembly Feature} (hErrors : b.errors = a.errors)
    (hSymbols : b.symbols = a.symbols) (hListing : b.listing = a.listing) : Records a b :=
  ⟨hErrors ▸ List.prefix_rfl, hSymbols ▸ List.prefix_rfl, hListing ▸ List.prefix_rfl⟩

namespace Continues

variable {a b c : Assembly Feature}

theorem of_regions_eq (hRegions : b.regions = a.regions) (hRecords : Records a b) :
    Continues a b := by
  refine ⟨hRecords, ?_, ?_⟩
  · intro i r hr
    exact ⟨r, hRegions ▸ hr, .refl _⟩
  · intro hWell
    unfold WellFormed
    rwa [hRegions]

/-- Nothing but the machine, what was reported and the cursor changed. -/
theorem of_same (hRegions : b.regions = a.regions) (hErrors : b.errors = a.errors)
    (hSymbols : b.symbols = a.symbols) (hListing : b.listing = a.listing) : Continues a b :=
  .of_regions_eq hRegions (.of_eq hErrors hSymbols hListing)

theorem refl (s : Assembly Feature) : Continues s s := .of_same rfl rfl rfl rfl

theorem trans (hab : Continues a b) (hbc : Continues b c) : Continues a c := by
  refine ⟨⟨hab.errors.trans hbc.errors, hab.symbols.trans hbc.symbols,
    hab.listing.trans hbc.listing⟩, ?_, fun h => hbc.wellFormed (hab.wellFormed h)⟩
  intro i r hr
  obtain ⟨r', hr', hExt⟩ := hab.regions i r hr
  obtain ⟨r'', hr'', hExt'⟩ := hbc.regions i r' hr'
  exact ⟨r'', hr'', hExt.trans hExt'⟩

/-- Only the current region changed, and it was continued. -/
theorem of_current (hEarlier : b.earlier = a.earlier)
    (hOutput : a.current.output.Extends b.current.output)
    (hWell : a.current.output.WellFormed → b.current.output.WellFormed)
    (hRecords : Records a b) : Continues a b := by
  refine ⟨hRecords, ?_, ?_⟩
  · intro i r hr
    rcases getElem?_regions_eq_some.mp hr with hr | ⟨rfl, rfl⟩
    · exact ⟨r, getElem?_regions_eq_some.mpr (.inl (hEarlier ▸ hr)), .refl _⟩
    · have hIndex : a.regionIndex = b.regionIndex := by rw [regionIndex, regionIndex, hEarlier]
      exact ⟨b.current, getElem?_regions_eq_some.mpr (.inr ⟨hIndex, rfl⟩), hOutput⟩
  · intro hAll r hr
    unfold Assembly.regions at hr
    rw [hEarlier] at hr
    rcases List.mem_append.mp hr with hr | hr
    · exact hAll r (List.mem_append_left _ hr)
    · rw [List.mem_singleton.mp hr]
      exact hWell (hAll _ (List.mem_append_right _ (List.mem_singleton_self _)))

/-- A region was opened behind all others. -/
theorem of_append {r : Region} (hRegions : b.regions = a.regions ++ [r]) (hWell : r.output.WellFormed)
    (hRecords : Records a b) : Continues a b := by
  refine ⟨hRecords, ?_, ?_⟩
  · intro i r hr
    obtain ⟨hIndex, -⟩ := List.getElem?_eq_some_iff.mp hr
    refine ⟨r, ?_, .refl _⟩
    rw [hRegions, List.getElem?_append_left hIndex]
    exact hr
  · intro hAll r hr
    rw [hRegions] at hr
    rcases List.mem_append.mp hr with hr | hr
    · exact hAll r hr
    · rw [List.mem_singleton.mp hr]
      exact hWell

end Continues

/-- A statement adds to the symbols by itself, but neither to the listing nor to the errors. -/
theorem Effect.keeps {s s' : Assembly Feature} (h : Effect s s') :
    s.symbols.symbols <+: s'.symbols.symbols ∧ s'.listing = s.listing ∧ s'.errors = s.errors := by
  cases h with
  | appends h => exact ⟨h.encoder.symbols, h.listing, h.errors⟩
  | opens hAt origin span h =>
    obtain ⟨⟨symbols, c, rfl⟩, hSymbols⟩ := h
    obtain ⟨earlier, current, hOpened⟩ := opened_eq s origin span
    rw [hOpened] at hSymbols ⊢
    exact ⟨hSymbols, rfl, rfl⟩

theorem continues_opened (s : Assembly Feature) (origin : Value) (span : Span) :
    Continues s (s.opened origin span) := by
  have hRecords : Records s (s.opened origin span) := by
    obtain ⟨earlier, current, hOpened⟩ := opened_eq s origin span
    rw [hOpened]
    exact .of_eq rfl rfl rfl
  unfold opened at hRecords ⊢
  split
  · next hEmpty =>
    rw [if_pos hEmpty] at hRecords
    exact .of_current rfl ((Section.Extends.refl _).congr_right rfl rfl) (·.congr rfl rfl) hRecords
  · next hEmpty =>
    rw [if_neg hEmpty] at hRecords
    refine .of_append (r := ⟨{ origin := some origin }, span⟩) ?_ (.empty _) hRecords
    simp [regions]

theorem Effect.records {s s' : Assembly Feature} (h : Effect s s') : Records s s' := by
  obtain ⟨hSymbols, hListing, hErrors⟩ := h.keeps
  exact ⟨hErrors ▸ List.prefix_rfl, hSymbols, hListing ▸ List.prefix_rfl⟩

theorem continues_of_effect {s s' : Assembly Feature} (h : Effect s s') : Continues s s' := by
  have hRecords := h.records
  cases h with
  | appends h => exact .of_current h.earlier h.encoder.output h.encoder.wellFormed hRecords
  | opens hAt origin span h =>
    have hOpened := continues_opened s origin span
    obtain ⟨⟨symbols, c, rfl⟩, hSymbols⟩ := h
    exact hOpened.trans (.of_regions_eq rfl ⟨List.prefix_rfl, hSymbols, List.prefix_rfl⟩)

-- --------
-- Taking output back
-- --------

section Rollback

variable {s s' : Assembly Feature}

theorem rollback_eq (s : Assembly Feature) (region : Nat) (c : Section.Checkpoint) :
    ∃ earlier current, s.rollback region c = { s with earlier, current } := by
  unfold rollback
  dsimp only
  split
  · exact ⟨s.earlier, _, rfl⟩
  · exact ⟨_, s.current, rfl⟩

theorem regions_rollback_current {region : Nat} (h : region = s.regionIndex)
    (c : Section.Checkpoint) :
    (s.rollback region c).regions =
      s.earlier ++ [⟨s.current.output.rollback c, s.current.span⟩] := by
  unfold rollback
  rw [if_pos h]
  rfl

theorem regions_rollback_earlier {region : Nat} (h : region ≠ s.regionIndex)
    (c : Section.Checkpoint) :
    (s.rollback region c).regions =
      s.earlier.modify region (fun r => ⟨r.output.rollback c, r.span⟩) ++ [s.current] := by
  unfold rollback
  rw [if_neg h]
  rfl

/-- **Taking back the output of a statement** leaves the regions as they were, but for one that `.org`
has moved or opened. -/
theorem regions_rollback_of_effect (h : Effect s s') :
    (s'.rollback s.regionIndex s.current.output.checkpoint).regions = s.regions ∨
      atOrigin s.cursor.behindLabel = true ∧ ∃ origin span,
        (s'.rollback s.regionIndex s.current.output.checkpoint).regions =
          (s.opened origin span).regions := by
  cases h with
  | appends h =>
    have hIndex : s.regionIndex = s'.regionIndex := by
      unfold regionIndex
      rw [h.earlier]
    have hExtends : s.current.output.Extends s'.current.output := h.encoder.output
    have hOrigin : s'.current.output.origin = s.current.output.origin := h.encoder.origin
    left
    rw [regions_rollback_current hIndex, hExtends.rollback, hOrigin, h.earlier, h.span]
    rfl
  | opens hAt origin span h =>
    obtain ⟨⟨symbols, c, rfl⟩, -⟩ := h
    refine .inr ⟨hAt, origin, span, ?_⟩
    unfold opened
    split
    · refine (regions_rollback_current rfl _).trans ?_
      show s.earlier ++ [⟨(s.current.output.setOrigin origin).rollback
        (s.current.output.setOrigin origin).checkpoint, span⟩] = _
      rw [Section.rollback_checkpoint]
      rfl
    · refine (regions_rollback_earlier (by simp [regionIndex]) _).trans ?_
      simp [regions, regionIndex, List.modify_eq_take_drop]

end Rollback

-- --------
-- Runs
-- --------

variable [DecidableEq Mode] [Flag Mode] [Flag Feature] (job : Job Mnemonic Mode Feature)
  (s : Assembly Feature)

/-- **A statement only adds**, and one that fails adds its error and no output. -/
theorem continues_statement : Continues s (statement job s) := by
  unfold statement
  dsimp only
  split
  · next s' hRun =>
    have hEffect := (effect_wholeStatement job).of_ok hRun
    refine (continues_of_effect hEffect).trans (.of_regions_eq rfl ?_)
    exact ⟨List.prefix_rfl, List.prefix_rfl, List.prefix_append _ _⟩
  · next d s' hRun =>
    have hEffect := (effect_wholeStatement job).of_error hRun
    obtain ⟨hSymbols, hListing, hErrors⟩ := hEffect.keeps
    obtain ⟨earlier, current, hBack⟩ := rollback_eq s' s.regionIndex s.current.output.checkpoint
    have hMore : s.errors <+: s'.errors ++ [d] := hErrors ▸ List.prefix_append _ _
    rcases regions_rollback_of_effect hEffect with hSame | ⟨-, origin, span, hOpened⟩
    · rw [hBack] at hSame ⊢
      exact .of_regions_eq hSame ⟨hMore, hSymbols, hListing ▸ List.prefix_rfl⟩
    · obtain ⟨earlier', current', hEq⟩ := opened_eq s origin span
      rw [hBack] at hOpened ⊢
      refine (continues_opened s origin span).trans (.of_regions_eq hOpened ?_)
      rw [hEq]
      exact ⟨hMore, hSymbols, hListing ▸ List.prefix_rfl⟩

theorem continues_step : Continues s (step job s) := by
  unfold step
  split
  · exact .of_same rfl rfl rfl rfl
  · exact continues_statement job s

variable {job s} in
/-- What every step keeps is kept by any number of them. -/
theorem steps_induction {motive : Assembly Feature → Prop}
    (hStep : ∀ t, motive t → t.cursor.isExhausted = false → motive (step job t)) (n : Nat) (h : motive s) :
    motive (steps job n s) := by
  induction n generalizing s with
  | zero => exact h
  | succ n ih =>
    unfold steps
    split
    · exact h
    · next hMore => exact ih (hStep s h (Bool.eq_false_iff.mpr hMore))

/-- Any number of steps only add. -/
theorem continues_steps (n : Nat) : Continues s (steps job n s) :=
  steps_induction (motive := Continues s) (fun t h _ => h.trans (continues_step job t)) n (.refl s)

end CrossAsm.Assembly
