import CrossAsm.Proofs.Assembly.Label
import CrossAsm.Proofs.Assembly.Setting
import CrossAsm.Proofs.Reading.Operand

/-!
# CrossAsm — the regions of a run

Output starts in a relocatable region. `.org` moves the current region as long as that is empty, and opens
another one behind it otherwise. So there is at most one relocatable region, the first, and no empty one but the
last.

* `Region.Arranged` — regions of that form, with addresses for origins.
* `Assembly.arranged_statement` — every statement keeps it, also one that fails.
* `Family.arranged_program` — so the regions of a program have it.
-/

namespace CrossAsm

-- --------
-- Arranged regions
-- --------

namespace Region

/-- Only the first region can be relocatable and only the last one empty. Origins are addresses up to `high`. -/
structure Arranged (high : Value) (rs : List Region) : Prop where
  placed : ∀ (i : Nat) (r : Region), rs[i]? = some r → 0 < i → r.output.origin ≠ none
  filled : ∀ (i : Nat) (r : Region), rs[i]? = some r → i + 1 < rs.length → r.output.data ≠ []
  inside : ∀ (i : Nat) (r : Region), rs[i]? = some r → ∀ origin, r.output.origin = some origin →
             0 ≤ origin ∧ origin ≤ high

end Region

namespace Assembly

variable {Mnemonic Mode Feature : Type} {high : Value} {s b t : Assembly Feature}

theorem length_regions (s : Assembly Feature) : s.regions.length = s.regionIndex + 1 := by
  unfold regions regionIndex
  rw [List.length_append, List.length_singleton]

theorem regionIndex_le_opened (s : Assembly Feature) (origin : Value) (span : Span) :
    s.regionIndex ≤ (s.opened origin span).regionIndex := by
  unfold opened
  split
  · exact Nat.le_refl _
  · unfold regionIndex
    dsimp only
    rw [List.length_append]
    exact Nat.le_add_right _ _

/-- The regions in front of the current one were there before a region was opened. -/
theorem getElem?_regions_of_opened {origin : Value} {span : Span} {i : Nat} {r : Region}
    (h : (s.opened origin span).earlier[i]? = some r) : s.regions[i]? = some r := by
  unfold opened at h
  split at h
  · exact getElem?_regions_eq_some.mpr (.inl h)
  · exact h

theorem arranged_opened (h : Region.Arranged high s.regions) {origin : Value}
    (hLow : 0 ≤ origin) (hHigh : origin ≤ high) (span : Span) :
    Region.Arranged high (s.opened origin span).regions := by
  have hOrigin := (current_opened s origin span).1
  refine ⟨fun i r hr hi => ?_, fun i r hr hi => ?_, fun i r hr o ho => ?_⟩
  · rcases getElem?_regions_eq_some.mp hr with hr | ⟨-, rfl⟩
    · exact h.placed i r (getElem?_regions_of_opened hr) hi
    · rw [hOrigin]
      nofun
  · rw [length_regions] at hi
    rcases getElem?_regions_eq_some.mp hr with hr | ⟨rfl, -⟩
    · -- It was there before, and it was not the last one unless it had to be closed.
      unfold opened at hr hi
      split at hr
      · next hEmpty =>
        rw [if_pos hEmpty] at hi
        refine h.filled i r (getElem?_regions_eq_some.mpr (.inl hr)) ?_
        rw [length_regions]
        exact hi
      · next hFull =>
        rcases getElem?_regions_eq_some.mp hr with hr | ⟨rfl, rfl⟩
        · refine h.filled i r (getElem?_regions_eq_some.mpr (.inl hr)) ?_
          have hLess : i < s.regionIndex := (List.getElem?_eq_some_iff.mp hr).1
          rw [length_regions]
          omega
        · exact fun hNil => hFull (List.isEmpty_iff.mpr hNil)
    · omega
  · rcases getElem?_regions_eq_some.mp hr with hr | ⟨-, rfl⟩
    · exact h.inside i r (getElem?_regions_of_opened hr) o ho
    · rw [hOrigin] at ho
      obtain rfl := Option.some.inj ho
      exact ⟨hLow, hHigh⟩

/-- The form of the regions depends on the layout, and on the output of those that are closed. -/
theorem arranged_of_layout (h : Region.Arranged high b.regions) (hLayout : t.layout = b.layout)
    (hClosed : ∀ (i : Nat) (r : Region), b.earlier[i]? = some r →
      ∃ r', t.regions[i]? = some r' ∧ r.output.Extends r'.output) :
    Region.Arranged high t.regions := by
  have hSame : ∀ (i : Nat) (r' : Region), t.regions[i]? = some r' →
      ∃ r, b.regions[i]? = some r ∧ r.output.origin = r'.output.origin := by
    intro i r' hr'
    have hAt : t.layout[i]? = b.layout[i]? := by rw [hLayout]
    simp only [layout, List.getElem?_map, hr', Option.map_some] at hAt
    obtain ⟨r, hr, hEq⟩ := Option.map_eq_some_iff.mp hAt.symm
    exact ⟨r, hr, (Prod.mk.inj hEq).1⟩
  have hLength : t.regions.length = b.regions.length := by
    simpa [layout] using congrArg List.length hLayout
  refine ⟨fun i r' hr' hi => ?_, fun i r' hr' hi => ?_, fun i r' hr' o ho => ?_⟩
  · obtain ⟨r, hr, hOrigin⟩ := hSame i r' hr'
    rw [← hOrigin]
    exact h.placed i r hr hi
  · rw [hLength] at hi
    obtain ⟨r, hr, -⟩ := hSame i r' hr'
    have hBefore : b.earlier[i]? = some r := by
      rcases getElem?_regions_eq_some.mp hr with hr | ⟨rfl, -⟩
      · exact hr
      · rw [length_regions] at hi
        omega
    obtain ⟨r'', hr'', hExtends⟩ := hClosed i r hBefore
    obtain rfl := Option.some.inj (hr'.symm.trans hr'')
    intro hNil
    have hPrefix := hExtends.data
    rw [hNil] at hPrefix
    exact h.filled i r hr hi (List.prefix_nil.mp hPrefix)
  · obtain ⟨r, hr, hOrigin⟩ := hSame i r' hr'
    exact h.inside i r hr o (hOrigin.trans ho)

-- --------
-- Statements and runs
-- --------

theorem within_of_argument? {job : Job Mnemonic Mode Feature} {low v : Value} {c : Cursor}
    (h : argument? job low high s = some (v, c)) : low ≤ v ∧ v ≤ high := by
  unfold argument? at h
  split at h
  · obtain ⟨x, hx, hEq⟩ := Option.map_eq_some_iff.mp h
    obtain ⟨rfl, rfl⟩ := Prod.mk.inj hEq
    obtain ⟨hLow, hHigh⟩ := Value.within_iff.mp (Option.filter_eq_some_iff.mp hx).2
    exact ⟨Int64.le_iff_toInt_le.mpr hLow, Int64.le_iff_toInt_le.mpr hHigh⟩
  · cases h

section

variable {job : Job Mnemonic Mode Feature}

/-- The argument of an `.org` that takes effect is an address. -/
theorem within_of_setting? {origin : Value} {span : Span} {c : Cursor}
    (h : setting? job s = some (.origin origin span, c)) :
    0 ≤ origin ∧ origin ≤ job.family.highestAddress := by
  obtain ⟨d, -, h⟩ := Option.bind_eq_some_iff.mp h
  obtain ⟨symbols, -, h⟩ := Option.bind_eq_some_iff.mp h
  cases d with
  | origin =>
    obtain ⟨⟨v, c'⟩, hArgument, hEq⟩ := Option.map_eq_some_iff.mp h
    cases hEq
    exact within_of_argument? hArgument
  | data w => cases h
  | cpu =>
    obtain ⟨features, -, hEq⟩ := Option.map_eq_some_iff.mp h
    cases hEq
  | basePage =>
    obtain ⟨⟨v, c'⟩, -, hEq⟩ := Option.map_eq_some_iff.mp h
    cases hEq
  | synthesis =>
    unfold directiveSetting? at h
    dsimp only at h
    split at h <;> cases h

variable [DecidableEq Mode] [Flag Mode] [Flag Feature]

/-- **A statement keeps the form of the regions**, whether it fails or not. -/
theorem arranged_statement (h : Region.Arranged job.family.highestAddress s.regions) :
    Region.Arranged job.family.highestAddress (statement job s).regions := by
  have hSettled := settled_statement job s
  have hContinues := continues_statement job s
  have hBefore : ∀ (i : Nat) (r : Region), s.earlier[i]? = some r →
      ∃ r', (statement job s).regions[i]? = some r' ∧ r.output.Extends r'.output :=
    fun i r hr => hContinues.regions i r (getElem?_regions_eq_some.mpr (.inl hr))
  cases hSetting : setting? job s with
  | none =>
    exact arranged_of_layout h ((settled_of_not_setting hSetting).trans hSettled).layout hBefore
  | some found =>
    obtain ⟨a, c⟩ := found
    have hLayout := ((settled_of_setting hSetting).trans hSettled).layout
    cases a with
    | machine m => exact arranged_of_layout (b := { s with machine := m }) h hLayout hBefore
    | origin origin span =>
      obtain ⟨hLow, hHigh⟩ := within_of_setting? hSetting
      refine arranged_of_layout (arranged_opened h hLow hHigh span) hLayout ?_
      exact fun i r hr => hContinues.regions i r (getElem?_regions_of_opened hr)

theorem arranged_step (h : Region.Arranged job.family.highestAddress s.regions) :
    Region.Arranged job.family.highestAddress (step job s).regions := by
  unfold step
  split
  · exact h
  · exact arranged_statement h

theorem arranged_steps (n : Nat) (h : Region.Arranged job.family.highestAddress s.regions) :
    Region.Arranged job.family.highestAddress (steps job n s).regions :=
  steps_induction (motive := fun t => Region.Arranged job.family.highestAddress t.regions)
    (fun _ hArranged _ => arranged_step hArranged) n h

end

end Assembly

namespace Family

theorem Shipped.highestAddress_eq {Mnemonic Mode Feature : Type} {F : Family Mnemonic Mode Feature}
    (hF : F.Shipped) : F.highestAddress = 0xffff := by
  cases hF with
  | mos65 => rfl
  | z80 => rfl

variable {Mnemonic Mode Feature : Type} [DecidableEq Mode] [Flag Mode] [Flag Feature]
  {F : Family Mnemonic Mode Feature} {machine : Machine Feature} {policy : Policy} {source : String}
  {p : Program}

theorem wellFormed_program (h : (F.assemble machine policy source).result = .ok p) : p.WellFormed := by
  obtain ⟨tokens, final, -, hRun, -, rfl⟩ := exists_run h
  subst hRun
  refine (Assembly.continues_steps (F.job policy source) _ tokens.length).wellFormed fun r hr => ?_
  rw [List.mem_singleton.mp hr]
  exact .empty none

/-- **The regions of a program** are arranged. -/
theorem arranged_program (h : (F.assemble machine policy source).result = .ok p) :
    Region.Arranged F.highestAddress p.regions := by
  obtain ⟨tokens, final, -, hRun, -, rfl⟩ := exists_run h
  subst hRun
  have hStart : Region.Arranged (F.job policy source).family.highestAddress
      (Assembly.regions { machine, cursor := ⟨tokens, source.utf8ByteSize⟩ }) := by
    refine ⟨fun i r hr hi => ?_, fun i r hr hi => ?_, fun i r hr o ho => ?_⟩
    · rw [List.getElem?_eq_none (Nat.succ_le_of_lt hi)] at hr
      cases hr
    · simp [Assembly.regions] at hi
    · obtain rfl := List.mem_singleton.mp (List.mem_of_getElem? hr)
      cases ho
  exact Assembly.arranged_steps tokens.length hStart

end Family

end CrossAsm
