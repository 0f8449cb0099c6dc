import CrossAsm.Program
import CrossAsm.Proofs.Section.Link

/-!
# CrossAsm — linking a program

* `exists_linkSections_iff`: a program links exactly if every one of its patches can be filled in.
* `exists_linkSections_iff_fields`: to see whether it links, some fields of a region can be looked at by
  themselves.
* `block_of_linkSections`: the block of a region is its bytes with the patches filled in.
-/

namespace CrossAsm

/-- No two patches start at the same offset. -/
theorem Section.WellFormed.eq_of_offset_eq {s : Section} (h : s.WellFormed) {p q : Patch}
    (hp : p ∈ s.patches) (hq : q ∈ s.patches) (hOffset : p.offset = q.offset) : p = q := by
  obtain ⟨i, hi, rfl⟩ := List.getElem_of_mem hp
  obtain ⟨j, hj, rfl⟩ := List.getElem_of_mem hq
  have hAscending := List.pairwise_iff_getElem.mp h.ascending
  rcases Nat.lt_trichotomy i j with hij | rfl | hij
  · have hLess := hAscending i j hi hj hij
    omega
  · rfl
  · have hLess := hAscending j i hj hi hij
    omega

namespace Program

variable {t : SymbolTable} {base : Value}

theorem linkRegions_errors_eq_nil_iff (rs : List Region) :
    (linkRegions t base rs).2 = [] ↔ ∀ r ∈ rs, ∃ out, r.output.link t base = .ok out := by
  induction rs with
  | nil => simp [linkRegions]
  | cons r rs ih =>
    unfold linkRegions
    dsimp only
    cases hLink : r.output.link t base with
    | ok out => simp [Region.link, hLink, ih]
    | error errors =>
      have hErrors := (Section.link_eq_error_iff.mp hLink).2
      simp [Region.link, hLink, hErrors]

/-- The errors are those of the failing patches of all regions, in their order. -/
theorem linkRegions_errors (rs : List Region) :
    (linkRegions t base rs).2 =
      rs.flatMap fun r => r.output.patches.filterMap (Section.failure? t base) := by
  induction rs with
  | nil => rfl
  | cons r rs ih =>
    unfold linkRegions
    dsimp only
    cases hLink : r.output.link t base with
    | ok out => simp [Region.link, hLink, ih, (Section.link_eq_ok_iff.mp hLink).1]
    | error errors => simp [Region.link, hLink, ih, (Section.link_eq_error_iff.mp hLink).1]

/-- Blocks and regions correspond one to one. -/
theorem linkRegions_block {rs : List Region} (hErrors : (linkRegions t base rs).2 = []) {i : Nat}
    {r : Region} (hr : rs[i]? = some r) :
    ∃ out, (linkRegions t base rs).1[i]? = some ⟨r.load base, out, r.span⟩ ∧
      r.output.link t base = .ok out := by
  induction rs generalizing i with
  | nil => simp at hr
  | cons first rs ih =>
    have hAll := (linkRegions_errors_eq_nil_iff (first :: rs)).mp hErrors
    obtain ⟨out, hLink⟩ := hAll first (List.mem_cons_self ..)
    have hRest : (linkRegions t base rs).2 = [] :=
      (linkRegions_errors_eq_nil_iff rs).mpr fun r hr => hAll r (List.mem_cons_of_mem _ hr)
    have hBlocks : (linkRegions t base (first :: rs)).1 =
        ⟨first.load base, out, first.span⟩ :: (linkRegions t base rs).1 := by
      simp only [linkRegions, Region.link, hLink]
    rw [hBlocks]
    cases i with
    | zero =>
      obtain rfl := Option.some.inj hr
      exact ⟨_, rfl, hLink⟩
    | succ i => exact ih hRest hr

variable {p : Program}

theorem linkSections_eq_ok_iff {blocks : List Block} :
    p.linkSections base = .ok blocks ↔
      (linkRegions p.symbols base p.regions).2 = [] ∧
        (linkRegions p.symbols base p.regions).1 = blocks := by
  unfold linkSections
  cases linkRegions p.symbols base p.regions with
  | mk linked errors =>
    cases errors with
    | nil => simp
    | cons d ds => simp

theorem diagnostics_of_linkSections {f : Failure} (h : p.linkSections base = .error f) :
    f.diagnostics = p.regions.flatMap fun r => r.output.patches.filterMap (Section.failure? p.symbols base) := by
  rw [← linkRegions_errors]
  unfold linkSections at h
  split at h
  · cases h
  · next hErrors =>
    cases h
    rw [hErrors]
    rfl

/-- **A program links exactly if all its patches can be filled in.** -/
theorem exists_linkSections_iff :
    (∃ blocks, p.linkSections base = .ok blocks) ↔
      ∀ r ∈ p.regions, ∀ q ∈ r.output.patches, ∃ bytes, Section.fill p.symbols base q = .ok bytes := by
  have hFill (q : Patch) : (∃ bytes, Section.fill p.symbols base q = .ok bytes) ↔
      ∃ v, p.symbols.evaluate base q.expr = .ok v ∧ q.width.low ≤ v ∧ v ≤ q.width.high := by
    simp only [Section.fill_eq_ok_iff, Width.fits_iff]
    constructor
    · rintro ⟨bytes, v, hEval, hFits, -⟩
      exact ⟨v, hEval, hFits⟩
    · rintro ⟨v, hEval, hFits⟩
      exact ⟨_, v, hEval, hFits, rfl⟩
  simp only [hFill, ← Section.exists_link_ok_iff, ← linkRegions_errors_eq_nil_iff]
  constructor
  · rintro ⟨blocks, h⟩
    exact (linkSections_eq_ok_iff.mp h).1
  · intro hErrors
    exact ⟨_, linkSections_eq_ok_iff.mpr ⟨hErrors, rfl⟩⟩

/-- The block of a region is its linked bytes. -/
theorem block_of_linkSections {blocks : List Block} (h : p.linkSections base = .ok blocks) {i : Nat}
    {r : Region} (hr : p.regions[i]? = some r) :
    ∃ b, blocks[i]? = some b ∧ r.output.link p.symbols base = .ok b.bytes := by
  obtain ⟨hErrors, rfl⟩ := linkSections_eq_ok_iff.mp h
  obtain ⟨out, hBlock, hLink⟩ := linkRegions_block hErrors hr
  exact ⟨_, hBlock, hLink⟩

/-- It is found where the region is loaded. -/
theorem address_of_linkSections {blocks : List Block} (h : p.linkSections base = .ok blocks) {i : Nat}
    {r : Region} (hr : p.regions[i]? = some r) {b : Block} (hb : blocks[i]? = some b) :
    b.address = r.load base := by
  obtain ⟨hErrors, rfl⟩ := linkSections_eq_ok_iff.mp h
  obtain ⟨out, hBlock, -⟩ := linkRegions_block hErrors hr
  rw [hBlock] at hb
  obtain rfl := Option.some.inj hb
  rfl

-- --------
-- Some fields by themselves
-- --------

/-- Every patch of the program can be filled in, but for those of one region at some offsets. -/
def FillsOutside (p : Program) (base : Value) (region : Nat) (offsets : List Nat) : Prop :=
  ∀ (i : Nat) (r : Region), p.regions[i]? = some r → ∀ q ∈ r.output.patches,
    ¬ (i = region ∧ q.offset ∈ offsets) → ∃ bytes, Section.fill p.symbols base q = .ok bytes

/-- Whether a program links depends on some of its patches and on all others. -/
theorem exists_linkSections_iff_fields {region : Nat} {r : Region}
    (hr : p.regions[region]? = some r) (hWell : r.output.WellFormed) {qs : List Patch}
    (hqs : ∀ q ∈ qs, q ∈ r.output.patches) :
    (∃ blocks, p.linkSections base = .ok blocks) ↔
      (∀ q ∈ qs, ∃ bytes, Section.fill p.symbols base q = .ok bytes) ∧
        p.FillsOutside base region (qs.map Patch.offset) := by
  rw [exists_linkSections_iff]
  constructor
  · intro hAll
    refine ⟨fun q hq => hAll r (List.mem_of_getElem? hr) q (hqs q hq), ?_⟩
    intro i r' hr' q hq _
    exact hAll r' (List.mem_of_getElem? hr') q hq
  · rintro ⟨hFields, hOthers⟩ r' hr' q hq
    obtain ⟨i, hi⟩ := List.mem_iff_getElem?.mp hr'
    by_cases hHere : i = region ∧ q.offset ∈ qs.map Patch.offset
    · obtain ⟨rfl, hOffset⟩ := hHere
      obtain ⟨q', hq', hSame⟩ := List.mem_map.mp hOffset
      rw [hr] at hi
      obtain rfl := Option.some.inj hi
      rw [← hWell.eq_of_offset_eq (hqs q' hq') hq hSame]
      exact hFields q' hq'
    · exact hOthers i r' hi q hq hHere

end Program

end CrossAsm
