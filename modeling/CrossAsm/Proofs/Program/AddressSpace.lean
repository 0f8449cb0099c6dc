import CrossAsm.Proofs.Program.Layout

/-!
# CrossAsm — the end of the address space

Of a section only the origin is checked. One that starts in the address space may go on behind its last address, and it
is linked there like any other. No two sections overlap, so at most one of them does that.

* `Block.length_overrun_le` — at most one block goes on behind the last address.
* `Program.InSpace` — where the output of a program is, as seen from the last address.
* `Family.output_starts_in_address_space` — all of this for every program.
-/

namespace CrossAsm

namespace Block

variable {top : Int} {b : Block} {blocks : List Block}

/-- The blocks that go on behind the address `top`. -/
def overrun (top : Int) (blocks : List Block) : List Block := blocks.filter fun b => top + 1 < b.stop

/-- A block goes on behind an address only if it covers the address too. -/
theorem covers_top (hFirst : b.first ≤ top) {address : Int} (h : b.Covers address) (hBehind : top < address) :
    b.Covers top := by
  obtain ⟨-, hStop⟩ := h
  exact ⟨hFirst, by omega⟩

/-- A block stays below an address exactly if it is not too long. -/
theorem stop_le_iff (hFirst : b.first ≤ top) :
    b.stop ≤ top + 1 ↔ ∀ address, b.Covers address → address ≤ top := by
  constructor
  · rintro hStop address ⟨-, hLess⟩
    omega
  · intro hInside
    by_cases hEmpty : b.stop ≤ b.first
    · omega
    · have hLast := hInside (b.stop - 1) ⟨by omega, by omega⟩
      omega

/-- Blocks that go on behind an address are not empty. -/
theorem overrun_occupied (hFirst : ∀ b ∈ blocks, b.first ≤ top) :
    overrun top (occupied blocks) = overrun top blocks := by
  unfold overrun occupied
  rw [List.filter_filter]
  refine List.filter_congr fun b hb => ?_
  have hStart := hFirst b hb
  by_cases hOver : top + 1 < b.stop
  · have hBytes : b.bytes ≠ [] := by
      intro hNil
      have hStop : b.stop = b.first + b.bytes.length := rfl
      rw [hNil] at hStop
      simp only [List.length_nil] at hStop
      omega
    simp [hOver, hBytes]
  · simp [hOver]

/-- **At most one block goes on behind an address**, if all of them start in front of it and no two of them overlap. -/
theorem length_overrun_le (hFirst : ∀ b ∈ blocks, b.first ≤ top) (hDisjoint : Disjoint blocks) :
    (overrun top blocks).length ≤ 1 := by
  have hApart : (overrun top blocks).Pairwise Apart := by
    rw [← overrun_occupied hFirst]
    exact hDisjoint.filter _
  have hBoth : ∀ b ∈ overrun top blocks, b.first ≤ top ∧ top + 1 < b.stop := by
    intro b hb
    obtain ⟨hMem, hOver⟩ := List.mem_filter.mp hb
    exact ⟨hFirst b hMem, of_decide_eq_true hOver⟩
  -- Two of them would both have a byte at the address.
  cases hList : overrun top blocks with
  | nil => exact Nat.zero_le 1
  | cons a others =>
    cases others with
    | nil => exact Nat.le_refl 1
    | cons b others =>
      rw [hList] at hApart hBoth
      have hPair : Apart a b := (List.pairwise_cons.mp hApart).1 b List.mem_cons_self
      obtain ⟨haFirst, haStop⟩ := hBoth a List.mem_cons_self
      obtain ⟨hbFirst, hbStop⟩ := hBoth b (List.mem_cons_of_mem a List.mem_cons_self)
      unfold Apart at hPair
      omega

end Block

-- --------
-- Programs
-- --------

namespace Program

variable {p : Program} {base : Value} {top : Int} {blocks : List Block} {image : List UInt8}

/-- No region is too long for its place in an address space whose last address is `top`. -/
def Fits (p : Program) (base : Value) (top : Int) : Prop :=
  ∀ r ∈ p.regions, (r.load base).toInt + r.output.size ≤ top + 1

/-- Where the output of a program that is linked at `base` is, in an address space whose last address is `top`. -/
structure InSpace (p : Program) (base : Value) (top : Int) (blocks : List Block) (image : List UInt8) : Prop where
  /-- The sections keep their lengths. Each is at its origin, or at the base. -/
  sections : List.Forall₂ (Region.Becomes base) p.regions blocks
  /-- All of them start in the address space. -/
  starts   : ∀ b ∈ blocks, 0 ≤ b.first ∧ b.first ≤ top
  /-- A byte behind the last address is in a section that has a byte at the last address. -/
  behind   : ∀ b ∈ blocks, ∀ address, b.Covers address → top < address → b.Covers top
  /-- There is at most one such section. -/
  single   : (Block.overrun top blocks).length ≤ 1
  /-- The output stays in the address space exactly if no region is too long. -/
  stays    : (∀ b ∈ blocks, ∀ address, b.Covers address → address ≤ top) ↔ p.Fits base top
  /-- So does the image. -/
  image    : image = [] ∨ ∃ start, 0 ≤ start ∧ start ≤ top ∧ Block.Depicts start (Block.occupied blocks) image ∧
    (start + image.length ≤ top + 1 ↔ p.Fits base top)

/-- The blocks are as long as their regions. -/
theorem fits_iff_of_becomes {rs : List Region} (h : List.Forall₂ (Region.Becomes base) rs blocks) :
    (∀ b ∈ blocks, b.stop ≤ top + 1) ↔ ∀ r ∈ rs, (r.load base).toInt + r.output.size ≤ top + 1 := by
  induction h with
  | nil => simp
  | @cons r b rs blocks hFirst _ ih =>
    have hStop : b.stop = (r.load base).toInt + r.output.size := by
      rw [Block.stop, Block.first, hFirst.address, hFirst.length]
      rfl
    rw [List.forall_mem_cons, List.forall_mem_cons, ih, hStop]

/-- The image ends where the last block does. -/
theorem length_image_le_iff {start : Int} (hStarts : ∀ b ∈ blocks, b.first ≤ top)
    (h : Block.Depicts start (Block.occupied blocks) image) :
    start + image.length ≤ top + 1 ↔ ∀ b ∈ blocks, b.stop ≤ top + 1 := by
  constructor
  · intro hEnd b hb
    -- The image tells nothing of an empty block, but that one ends where it starts.
    by_cases hBytes : b.bytes = []
    · have hStop : b.stop = b.first := by
        rw [Block.stop, hBytes]
        simp
      have hFirst := hStarts b hb
      omega
    · have hOccupied : b ∈ Block.occupied blocks := List.mem_filter.mpr ⟨hb, by simpa using hBytes⟩
      have hBound := h.highest.2 ⟨b, hOccupied, rfl⟩
      omega
  · intro hStops
    obtain ⟨b, hb, hEnd⟩ := h.highest.1
    rw [← hEnd]
    exact hStops b (List.mem_filter.mp hb).1

/-- Programs whose sections start in the address space lie in it like this. -/
theorem inSpace_of_starts (hWell : p.WellFormed) (hBlocks : p.linkSections base = .ok blocks)
    (hImage : Block.image blocks = .ok image) (hStarts : ∀ b ∈ blocks, 0 ≤ b.address ∧ b.first ≤ top) :
    p.InSpace base top blocks image := by
  have hSections := becomes_of_linkSections hWell hBlocks
  have hNonneg : ∀ b ∈ blocks, 0 ≤ b.address := fun b hb => (hStarts b hb).1
  have hFirst : ∀ b ∈ blocks, b.first ≤ top := fun b hb => (hStarts b hb).2
  have hFits : (∀ b ∈ blocks, b.stop ≤ top + 1) ↔ p.Fits base top := fits_iff_of_becomes hSections
  refine ⟨hSections, fun b hb => ⟨Int64.le_iff_toInt_le.mp (hNonneg b hb), hFirst b hb⟩,
    fun b hb address hCovers => Block.covers_top (hFirst b hb) hCovers, ?_, ?_, ?_⟩
  · exact Block.length_overrun_le hFirst ((Block.exists_image_iff hNonneg).mp ⟨image, hImage⟩)
  · refine Iff.trans ?_ hFits
    exact forall₂_congr fun b hb => (Block.stop_le_iff (hFirst b hb)).symm
  · rcases Block.depicts_image hNonneg hImage with ⟨-, hNil⟩ | ⟨start, hDepicts⟩
    · exact .inl hNil
    · obtain ⟨b, hb, rfl⟩ := hDepicts.lowest.1
      have hMem := (List.mem_filter.mp hb).1
      exact .inr ⟨b.first, Int64.le_iff_toInt_le.mp (hNonneg b hMem), hFirst b hMem, hDepicts,
        (length_image_le_iff hFirst hDepicts).trans hFits⟩

end Program

namespace Family

variable {Mnemonic Mode Feature : Type} [DecidableEq Mode] [Flag Mode] [Flag Feature]
  {F : Family Mnemonic Mode Feature} {machine : Machine Feature} {policy : Policy} {source : String}
  {p : Program}

/-- **The output starts in the address space.** A program that assembles and links has all its sections at addresses.
At most one of them has bytes behind the last address, and only if it has one at the last address. So the output stays
in the address space exactly if no section is too long for its place. -/
theorem output_starts_in_address_space (hF : F.Shipped)
    (hAssembled : (F.assemble machine policy source).result = .ok p) {base : Value} (hLow : 0 ≤ base)
    (hHigh : base ≤ 0xffff) {image : List UInt8} (hLink : p.link base = .ok image) :
    F.highestAddress = 0xffff ∧ ∃ blocks, p.linkSections base = .ok blocks ∧
      p.InSpace base F.highestAddress.toInt blocks image := by
  obtain ⟨blocks, hBlocks, hImage⟩ := Program.link_eq_ok hLink
  refine ⟨hF.highestAddress_eq, blocks, hBlocks,
    Program.inSpace_of_starts (wellFormed_program hAssembled) hBlocks hImage fun b hb => ?_⟩
  obtain ⟨hNonneg, hBelow⟩ := inside_of_linkSections hF hAssembled hLow hHigh hBlocks b hb
  rw [hF.highestAddress_eq]
  exact ⟨hNonneg, Int64.le_iff_toInt_le.mp hBelow⟩

/-- A program that links to blocks that do not overlap has an image. -/
theorem exists_link_of_check (hF : F.Shipped) {base : Value} (hLow : 0 ≤ base) (hHigh : base ≤ 0xffff)
    {blocks : List Block} (hDisjoint : Block.Disjoint blocks)
    (hCheck : ((F.assemble machine policy source).result.toOption.any fun p =>
      (p.linkSections base).toOption == some blocks) = true) :
    ∃ p image, (F.assemble machine policy source).result = .ok p ∧ p.link base = .ok image ∧
      p.linkSections base = .ok blocks := by
  obtain ⟨p, hp, hBlocks⟩ := (Option.any_eq_true _ _).mp hCheck
  have hAssembled := Action.ok_of_toOption hp
  have hBlocks := Action.ok_of_toOption (eq_of_beq hBlocks)
  have hNonneg : ∀ b ∈ blocks, 0 ≤ b.address := fun b hb =>
    (inside_of_linkSections hF hAssembled hLow hHigh hBlocks b hb).1
  obtain ⟨image, hImage⟩ := (Block.exists_image_iff hNonneg).mpr hDisjoint
  exact ⟨p, image, hAssembled, Program.link_of_image hBlocks hImage, hBlocks⟩

set_option maxRecDepth 10000 in
/-- Of two sections, the one at the last address goes on behind it. -/
theorem output_starts_in_address_space_two :
    ∃ p image blocks,
      (Mos65.family.assemble { features := {.base} } {} ".org $ffff\nnop\nnop\n.org 5\nrts\n").result = .ok p ∧
      (0 : Value) ≤ 0 ∧ (0 : Value) ≤ 0xffff ∧ p.link 0 = .ok image ∧ p.linkSections 0 = .ok blocks ∧
      p.InSpace 0 0xffff blocks image ∧ (Block.overrun 0xffff blocks).length = 1 := by
  have hApart : Block.Disjoint [⟨0xffff, [0xea, 0xea], ⟨1, 3⟩⟩, ⟨5, [0x60], ⟨20, 3⟩⟩] := by
    unfold Block.Disjoint Block.Apart
    decide
  have hCheck : ((Mos65.family.assemble { features := {.base} } {}
      ".org $ffff\nnop\nnop\n.org 5\nrts\n").result.toOption.any fun p => (p.linkSections 0).toOption ==
        some [⟨0xffff, [0xea, 0xea], ⟨1, 3⟩⟩, ⟨5, [0x60], ⟨20, 3⟩⟩]) = true := by decide +kernel
  obtain ⟨p, image, hAssembled, hLink, hBlocks⟩ :=
    exists_link_of_check .mos65 (by decide) (by decide) hApart hCheck
  obtain ⟨-, blocks, hBlocks', hSpace⟩ :=
    output_starts_in_address_space .mos65 hAssembled (by decide) (by decide) hLink
  obtain rfl := Except.ok.inj (hBlocks.symm.trans hBlocks')
  exact ⟨p, image, _, hAssembled, by decide, by decide, hLink, hBlocks, hSpace, by decide⟩

set_option maxRecDepth 10000 in
/-- Two bytes from the last address on are linked, be it that this is their origin or the base. -/
theorem output_behind_last_address :
    (∃ p image b,
      (Mos65.family.assemble { features := {.base} } {} ".org $ffff\nnop\nnop\n").result = .ok p ∧
      p.link 0 = .ok image ∧ p.linkSections 0 = .ok [b] ∧ b.Covers 0x10000) ∧
    ∃ p image b, (Z80.family.assemble { features := {.z80} } {} "nop\nnop\n").result = .ok p ∧
      p.link 0xffff = .ok image ∧ p.linkSections 0xffff = .ok [b] ∧ b.Covers 0x10000 := by
  have hSingle (b : Block) : Block.Disjoint [b] := (List.pairwise_singleton _ b).filter _
  have hOrigin : ((Mos65.family.assemble { features := {.base} } {}
      ".org $ffff\nnop\nnop\n").result.toOption.any fun p => (p.linkSections 0).toOption ==
        some [⟨0xffff, [0xea, 0xea], ⟨1, 3⟩⟩]) = true := by decide +kernel
  have hBase : ((Z80.family.assemble { features := {.z80} } {} "nop\nnop\n").result.toOption.any fun p =>
      (p.linkSections 0xffff).toOption == some [⟨0xffff, [0, 0], ⟨0, 0⟩⟩]) = true := by decide +kernel
  constructor
  · obtain ⟨p, image, hAssembled, hLink, hBlocks⟩ :=
      exists_link_of_check .mos65 (by decide) (by decide) (hSingle _) hOrigin
    exact ⟨p, image, _, hAssembled, hLink, hBlocks, by decide, by decide⟩
  · obtain ⟨p, image, hAssembled, hLink, hBlocks⟩ :=
      exists_link_of_check .z80 (by decide) (by decide) (hSingle _) hBase
    exact ⟨p, image, _, hAssembled, hLink, hBlocks, by decide, by decide⟩

end Family

end CrossAsm
