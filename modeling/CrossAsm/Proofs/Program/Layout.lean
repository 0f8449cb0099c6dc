import CrossAsm.Proofs.Assembly.Region
import CrossAsm.Proofs.Program.Image
import Mathlib.Data.List.Perm.Subperm

/-!
# CrossAsm — where everything is in an image

Addresses are 64-bit words, and an image is laid out by their differences. Origins and bases are below `2 ^ 16`,
so all differences are those of the integers, and the layout can be described in integers.

* `Block.exists_image_iff` — there is an image exactly if no two blocks share an address.
* `Block.Depicts` — what is in it: the bytes of every block in their place, and zeros elsewhere.
* `Block.image_error` — if there is none, the error names a block that starts inside another one.
* `Program.ImageLayout` — all of this for a program.
-/

namespace CrossAsm

namespace Value

/-- Places at the same integer address are at the same address. -/
theorem add_ofNat_congr {a b : Value} {m n : Nat} (h : a.toInt + m = b.toInt + n) :
    a + ofNat m = b + ofNat n := by
  have hSum (v : Value) (k : Nat) : v + ofNat k = Int64.ofInt (v.toInt + k) := by
    rw [Int64.ofInt_add, Int64.ofInt_toInt, Int64.ofInt_eq_ofNat]
    rfl
  rw [hSum, hSum, h]

end Value

namespace Block

-- --------
-- Blocks as intervals
-- --------

/-- The address of the first byte, as an integer. -/
def first (b : Block) : Int := b.address.toInt

/-- The address behind the last byte, as an integer. -/
def stop (b : Block) : Int := b.first + b.bytes.length

/-- The blocks share no address. -/
def Apart (a b : Block) : Prop := a.stop ≤ b.first ∨ b.stop ≤ a.first

/-- The blocks that take any place. -/
def occupied (blocks : List Block) : List Block := blocks.filter (!·.bytes.isEmpty)

/-- No two blocks share an address. -/
def Disjoint (blocks : List Block) : Prop := (occupied blocks).Pairwise Apart

variable {start : Value} {image out : List UInt8} {a b : Block} {bs blocks placed : List Block}

theorem first_lt_stop (h : b.bytes ≠ []) : b.first < b.stop := by
  have hPos : 0 < b.bytes.length := List.length_pos_iff.mpr h
  unfold stop
  omega

/-- One step of the layout in integers. -/
theorem layOut_cons_eq (hStart : 0 ≤ start) (h : start ≤ b.address) (image : List UInt8) :
    layOut start image (b :: bs) =
      if b.first < start.toInt + image.length then
        .error (.overlappingSections b.address (start + Value.ofNat image.length - 1) b.span)
      else
        layOut start
          (image ++ List.replicate ((b.first - start.toInt).toNat - image.length) 0 ++ b.bytes) bs := by
  have hLe : start.toInt ≤ b.first := Int64.le_iff_toInt_le.mp h
  have hDiff : (b.address - start).toInt = b.first - start.toInt :=
    Value.toInt_sub_of_nonneg hStart (Int64.le_trans hStart h)
  rw [layOut, hDiff]
  by_cases hInside : b.first < start.toInt + image.length
  · rw [if_pos hInside, if_pos (by omega)]
  · rw [if_neg hInside, if_neg (by omega)]

/-- The image with a block behind it ends where the block ends. -/
theorem length_placed (hLe : start.toInt + image.length ≤ b.first) :
    start.toInt + (image ++ List.replicate ((b.first - start.toInt).toNat - image.length) 0 ++
      b.bytes).length = b.stop := by
  unfold stop
  rw [List.length_append, List.length_append, List.length_replicate]
  omega

-- --------
-- When there is an image
-- --------

/-- Blocks can be laid out if each of them starts behind the image and behind the blocks before it. -/
theorem exists_layOut_iff (hStart : 0 ≤ start) (hs : ∀ b ∈ bs, start ≤ b.address) :
    (∃ out, layOut start image bs = .ok out) ↔
      (∀ b ∈ bs, start.toInt + image.length ≤ b.first) ∧ bs.Pairwise fun a b => a.stop ≤ b.first := by
  induction bs generalizing image with
  | nil => exact iff_of_true ⟨image, rfl⟩ ⟨nofun, .nil⟩
  | cons b bs ih =>
    obtain ⟨hb, hs⟩ := List.forall_mem_cons.mp hs
    rw [layOut_cons_eq hStart hb, List.forall_mem_cons, List.pairwise_cons]
    by_cases hInside : b.first < start.toInt + image.length
    · rw [if_pos hInside]
      refine iff_of_false ?_ fun h => absurd h.1.1 (Int.not_le.mpr hInside)
      rintro ⟨out, hOut⟩
      cases hOut
    · have hLe := Int.not_lt.mp hInside
      have hBehind : b.first ≤ b.stop := by
        unfold stop
        omega
      rw [if_neg hInside, ih hs, length_placed hLe]
      constructor
      · rintro ⟨hAll, hOthers⟩
        exact ⟨⟨hLe, fun c hc => (hLe.trans hBehind).trans (hAll c hc)⟩, hAll, hOthers⟩
      · rintro ⟨-, hAll, hOthers⟩
        exact ⟨hAll, hOthers⟩

/-- Of two blocks in the order of their addresses, the second one starts behind the first or inside it. -/
theorem apart_iff (hLe : a.address ≤ b.address) (hb : b.bytes ≠ []) : Apart a b ↔ a.stop ≤ b.first := by
  have hFirst : a.first ≤ b.first := Int64.le_iff_toInt_le.mp hLe
  have hStop := first_lt_stop hb
  unfold Apart
  omega

theorem perm_ordered (blocks : List Block) : (ordered blocks).Perm (occupied blocks) :=
  List.mergeSort_perm _ _

theorem disjoint_iff_ordered : Disjoint blocks ↔ (ordered blocks).Pairwise fun a b => a.stop ≤ b.first := by
  have hSorted := pairwise_ordered blocks
  have hBytes : ∀ b ∈ ordered blocks, b.bytes ≠ [] := fun b hb => (mem_ordered.mp hb).2
  unfold Disjoint
  rw [← (perm_ordered blocks).pairwise_iff (R := Apart) Or.symm]
  generalize ordered blocks = bs at hSorted hBytes
  induction bs with
  | nil => exact iff_of_true .nil .nil
  | cons b bs ih =>
    obtain ⟨hFirst, hSorted⟩ := List.pairwise_cons.mp hSorted
    obtain ⟨-, hBytes⟩ := List.forall_mem_cons.mp hBytes
    rw [List.pairwise_cons, List.pairwise_cons]
    refine and_congr (forall₂_congr fun c hc => ?_) (ih hSorted hBytes)
    exact apart_iff (hFirst c hc) (hBytes c hc)

/-- Blocks are laid out in the order of their addresses. -/
theorem image_eq_layOut {b : Block} (h : ordered blocks = b :: bs) :
    Block.image blocks = layOut b.address [] (b :: bs) := by
  unfold Block.image
  rw [show (blocks.filter (!·.bytes.isEmpty)).mergeSort (fun a b => decide (a.address ≤ b.address)) =
    b :: bs from h]

/-- The layout starts with the first of them. -/
theorem image_of_ordered {b : Block} (h : ordered blocks = b :: bs) :
    Block.image blocks = layOut b.address b.bytes bs := by
  have hZero : (b.address - b.address).toInt.toNat = 0 := by
    rw [Int64.sub_self]
    rfl
  rw [image_eq_layOut h, layOut, hZero]
  rfl

theorem image_of_ordered_nil (h : ordered blocks = []) : Block.image blocks = .ok [] := by
  unfold Block.image
  rw [show (blocks.filter (!·.bytes.isEmpty)).mergeSort (fun a b => decide (a.address ≤ b.address)) =
    [] from h]

/-- **There is an image exactly if no two blocks share an address.** -/
theorem exists_image_iff (hs : ∀ b ∈ blocks, 0 ≤ b.address) :
    (∃ image, Block.image blocks = .ok image) ↔ Disjoint blocks := by
  rw [disjoint_iff_ordered]
  cases hList : ordered blocks with
  | nil => exact iff_of_true ⟨[], image_of_ordered_nil hList⟩ .nil
  | cons b bs =>
    have hSorted := pairwise_ordered blocks
    rw [hList, List.pairwise_cons] at hSorted
    have hb : b ∈ ordered blocks := hList ▸ List.mem_cons_self
    rw [image_of_ordered hList, exists_layOut_iff (hs b (mem_ordered.mp hb).1) hSorted.1,
      List.pairwise_cons]
    rfl

-- --------
-- What is in an image
-- --------

/-- The block has a byte at the address. -/
def Covers (b : Block) (address : Int) : Prop := b.first ≤ address ∧ address < b.stop

/-- An image from the address `start` on shows the blocks. It reaches from the lowest to the highest of them, with
the byte of the block that covers an address there, and zero where none does. -/
structure Depicts (start : Int) (blocks : List Block) (image : List UInt8) : Prop where
  lowest  : IsLeast {address | ∃ b ∈ blocks, b.first = address} start
  highest : IsGreatest {address | ∃ b ∈ blocks, b.stop = address} (start + image.length)
  byte    : ∀ b ∈ blocks, ∀ i : Nat, b.Covers (start + i) →
              image[i]? = b.bytes[(start + i - b.first).toNat]?
  gap     : ∀ i, i < image.length → (∀ b ∈ blocks, ¬ b.Covers (start + i)) → image[i]? = some 0

theorem depicts_self (b : Block) : Depicts b.first [b] b.bytes := by
  refine ⟨⟨⟨b, List.mem_singleton_self b, rfl⟩, ?_⟩, ⟨⟨b, List.mem_singleton_self b, rfl⟩, ?_⟩, ?_, ?_⟩
  · rintro address ⟨c, hc, rfl⟩
    rw [List.mem_singleton.mp hc]
  · rintro address ⟨c, hc, rfl⟩
    rw [List.mem_singleton.mp hc]
    rfl
  · intro c hc i _
    obtain rfl := List.mem_singleton.mp hc
    have hIndex : (c.first + i - c.first).toNat = i := by omega
    rw [hIndex]
  · intro i hi hNone
    refine absurd ?_ (hNone b (List.mem_singleton_self b))
    unfold Covers stop
    omega

/-- A block is placed behind what is there, with zeros in between. -/
theorem Depicts.append {start : Int} (h : Depicts start placed image)
    (hLe : start + image.length ≤ b.first) :
    Depicts start (placed ++ [b])
      (image ++ List.replicate ((b.first - start).toNat - image.length) 0 ++ b.bytes) := by
  have hFront : (image ++ List.replicate ((b.first - start).toNat - image.length) (0 : UInt8)).length =
      (b.first - start).toNat := by
    rw [List.length_append, List.length_replicate]
    omega
  have hStop : b.first ≤ b.stop := by
    unfold stop
    omega
  have hLength : start + (image ++
      List.replicate ((b.first - start).toNat - image.length) 0 ++ b.bytes).length = b.stop := by
    rw [List.length_append, hFront]
    unfold stop
    omega
  refine ⟨⟨?_, ?_⟩, ⟨⟨b, by simp, hLength.symm⟩, ?_⟩, ?_, ?_⟩
  · obtain ⟨c, hc, hFirst⟩ := h.lowest.1
    exact ⟨c, List.mem_append_left _ hc, hFirst⟩
  · rintro address ⟨c, hc, rfl⟩
    rcases List.mem_append.mp hc with hc | hc
    · exact h.lowest.2 ⟨c, hc, rfl⟩
    · rw [List.mem_singleton.mp hc]
      omega
  · rintro address ⟨c, hc, rfl⟩
    rw [hLength]
    rcases List.mem_append.mp hc with hc | hc
    · exact (h.highest.2 ⟨c, hc, rfl⟩).trans (hLe.trans hStop)
    · rw [List.mem_singleton.mp hc]
  · intro c hc i hCovers
    rcases List.mem_append.mp hc with hc | hc
    · have hInside : i < image.length := by
        have hLast := h.highest.2 ⟨c, hc, rfl⟩
        have hBelow := hCovers.2
        omega
      rw [List.append_assoc, List.getElem?_append_left hInside]
      exact h.byte c hc i hCovers
    · obtain rfl := List.mem_singleton.mp hc
      have hBehind := hCovers.1
      rw [List.getElem?_append_right (by omega), hFront]
      congr 1
      omega
  · intro i hi hNone
    rw [List.length_append, hFront] at hi
    by_cases hOld : i < image.length
    · rw [List.append_assoc, List.getElem?_append_left hOld]
      exact h.gap i hOld fun c hc => hNone c (List.mem_append_left _ hc)
    · have hBefore : i < (b.first - start).toNat := by
        have hb := hNone b (by simp)
        unfold Covers stop at hb
        omega
      rw [List.getElem?_append_left (by omega), List.getElem?_append_right (by omega),
        List.getElem?_replicate_of_lt (by omega)]

theorem depicts_layOut (hStart : 0 ≤ start) (hs : ∀ b ∈ bs, start ≤ b.address)
    (hImage : Depicts start.toInt placed image) (h : layOut start image bs = .ok out) :
    Depicts start.toInt (placed ++ bs) out := by
  induction bs generalizing image placed with
  | nil =>
    cases h
    rwa [List.append_nil]
  | cons b bs ih =>
    obtain ⟨hb, hs⟩ := List.forall_mem_cons.mp hs
    rw [layOut_cons_eq hStart hb] at h
    split at h
    · cases h
    · next hInside =>
      have hNext := ih hs (hImage.append (Int.not_lt.mp hInside)) h
      rwa [List.append_assoc, List.singleton_append] at hNext

/-- The order in which blocks are given does not matter. -/
theorem Depicts.congr {start : Int} {blocks' : List Block} (h : Depicts start blocks image)
    (hSame : ∀ b, b ∈ blocks' ↔ b ∈ blocks) : Depicts start blocks' image := by
  refine ⟨?_, ?_, fun b hb => h.byte b ((hSame b).mp hb), fun i hi hNone => ?_⟩
  · simpa only [hSame] using h.lowest
  · simpa only [hSame] using h.highest
  · exact h.gap i hi fun b hb => hNone b ((hSame b).mpr hb)

/-- **What is in an image.** -/
theorem depicts_image (hs : ∀ b ∈ blocks, 0 ≤ b.address) (h : Block.image blocks = .ok image) :
    occupied blocks = [] ∧ image = [] ∨ ∃ start, Depicts start (occupied blocks) image := by
  cases hList : ordered blocks with
  | nil =>
    rw [image_of_ordered_nil hList] at h
    have hPerm := perm_ordered blocks
    rw [hList] at hPerm
    exact .inl ⟨hPerm.nil_eq.symm, (Except.ok.inj h).symm⟩
  | cons b bs =>
    have hSorted := pairwise_ordered blocks
    rw [hList, List.pairwise_cons] at hSorted
    have hb : b ∈ ordered blocks := hList ▸ List.mem_cons_self
    rw [image_of_ordered hList] at h
    have hAll := depicts_layOut (hs b (mem_ordered.mp hb).1) hSorted.1 (depicts_self b) h
    rw [List.singleton_append, ← hList] at hAll
    exact .inr ⟨b.first, hAll.congr fun c => (perm_ordered blocks).mem_iff.symm⟩

-- --------
-- Overlapping blocks
-- --------

/-- The address of the last byte, as it is reported. -/
def last (b : Block) : Value := b.address + Value.ofNat b.bytes.length - 1

/-- The error says which block starts inside another one, and where that one ends. -/
def Collides (blocks : List Block) (d : Diagnostic) : Prop :=
  ∃ a b, [a, b].Subperm blocks ∧ a.first ≤ b.first ∧ b.first < a.stop ∧
    d = .overlappingSections b.address a.last b.span

/-- A block that starts inside the image starts inside the block that is laid out last. -/
theorem layOut_error (hStart : 0 ≤ start) (hs : ∀ b ∈ bs, start ≤ b.address)
    (hStop : start.toInt + image.length = a.stop) {d : Diagnostic}
    (h : layOut start image bs = .error d) :
    ∃ a' b, [a', b].Sublist (a :: bs) ∧ b.first < a'.stop ∧
      d = .overlappingSections b.address a'.last b.span := by
  induction bs generalizing image a with
  | nil => cases h
  | cons b bs ih =>
    obtain ⟨hb, hs⟩ := List.forall_mem_cons.mp hs
    rw [layOut_cons_eq hStart hb] at h
    split at h
    · next hInside =>
      refine ⟨a, b, ?_, hStop ▸ hInside, ?_⟩
      · exact ((List.nil_sublist bs).cons_cons b).cons_cons a
      · rw [last, ← Value.add_ofNat_congr hStop]
        exact (Except.error.inj h).symm
    · next hInside =>
      obtain ⟨a', b', hSublist, hOverlap, hError⟩ := ih hs (length_placed (Int.not_lt.mp hInside)) h
      exact ⟨a', b', hSublist.cons a, hOverlap, hError⟩

/-- **Why there is no image.** -/
theorem collides_of_image_error (hs : ∀ b ∈ blocks, 0 ≤ b.address) {d : Diagnostic}
    (h : Block.image blocks = .error d) : Collides (occupied blocks) d := by
  cases hList : ordered blocks with
  | nil =>
    rw [image_of_ordered_nil hList] at h
    cases h
  | cons first bs =>
    have hSorted := pairwise_ordered blocks
    rw [hList] at hSorted
    have hFirst : first ∈ ordered blocks := hList ▸ List.mem_cons_self
    rw [image_of_ordered hList] at h
    obtain ⟨a, b, hSublist, hOverlap, hError⟩ := layOut_error (a := first)
      (hs first (mem_ordered.mp hFirst).1) (List.pairwise_cons.mp hSorted).1 rfl h
    have hLe : a.address ≤ b.address := by
      have hPair := hSorted.sublist hSublist
      exact (List.pairwise_cons.mp hPair).1 b (List.mem_singleton_self b)
    rw [← hList] at hSublist
    exact ⟨a, b, hSublist.subperm.trans (perm_ordered blocks).subperm, Int64.le_iff_toInt_le.mp hLe,
      hOverlap, hError⟩

/-- The last address is exact for a block that can be measured in addresses. -/
theorem toInt_last (hLow : 0 ≤ b.address) (hHigh : b.address ≤ 0xffff) (hBytes : b.bytes ≠ [])
    (hLength : b.bytes.length ≤ 2 ^ 63 - 2 ^ 16) : b.last.toInt = b.stop - 1 := by
  have hLow' : 0 ≤ b.address.toInt := Int64.le_iff_toInt_le.mp hLow
  have hHigh' : b.address.toInt ≤ 65535 := Int64.le_iff_toInt_le.mp hHigh
  have hPos : 0 < b.bytes.length := List.length_pos_iff.mpr hBytes
  have hNat : (Value.ofNat b.bytes.length).toInt = b.bytes.length := by
    have hToNat := Value.toNat_ofNat_of_lt (n := b.bytes.length) (by omega)
    omega
  have hSum : (b.address + Value.ofNat b.bytes.length).toInt = b.stop := by
    rw [Value.toInt_add_of_lt (by omega) (by omega), hNat]
    rfl
  have hStop : b.stop = b.address.toInt + b.bytes.length := rfl
  have hOne : (1 : Value).toInt = 1 := rfl
  rw [last, Int64.toInt_sub, hSum, hOne]
  exact Int.bmod_eq_of_le (by omega) (by omega)

end Block

-- --------
-- Programs
-- --------

/-- The block is the region where it is loaded. -/
structure Region.Becomes (base : Value) (r : Region) (b : Block) : Prop where
  address : b.address = r.output.origin.getD base
  length  : b.bytes.length = r.output.size

namespace Program

variable {p : Program} {base : Value} {blocks : List Block}

theorem becomes_of_linkRegions {t : SymbolTable} {rs : List Region}
    (hWell : ∀ r ∈ rs, r.output.WellFormed) (h : (linkRegions t base rs).2 = []) :
    List.Forall₂ (Region.Becomes base) rs (linkRegions t base rs).1 := by
  induction rs with
  | nil => exact .nil
  | cons r rs ih =>
    obtain ⟨hFirst, hOthers⟩ := List.forall_mem_cons.mp ((linkRegions_errors_eq_nil_iff _).mp h)
    obtain ⟨hr, hrs⟩ := List.forall_mem_cons.mp hWell
    obtain ⟨out, hLink⟩ := hFirst
    have hBlocks : (linkRegions t base (r :: rs)).1 =
        ⟨r.load base, out, r.span⟩ :: (linkRegions t base rs).1 := by
      simp only [linkRegions, Region.link, hLink]
    rw [hBlocks]
    exact .cons ⟨rfl, hr.length_link hLink⟩ (ih hrs ((linkRegions_errors_eq_nil_iff rs).mpr hOthers))

theorem becomes_of_linkSections (hWell : p.WellFormed) (h : p.linkSections base = .ok blocks) :
    List.Forall₂ (Region.Becomes base) p.regions blocks := by
  obtain ⟨hErrors, rfl⟩ := linkSections_eq_ok_iff.mp h
  exact becomes_of_linkRegions hWell hErrors

/-- What follows for all blocks from what holds of origins and of the base. -/
theorem forall_address_of_becomes {P : Value → Prop} {rs : List Region}
    (h : List.Forall₂ (Region.Becomes base) rs blocks)
    (hOrigin : ∀ r ∈ rs, ∀ origin, r.output.origin = some origin → P origin) (hBase : P base) :
    ∀ b ∈ blocks, P b.address := by
  induction h with
  | nil => exact nofun
  | @cons r b rs blocks hFirst _ ih =>
    obtain ⟨hr, hrs⟩ := List.forall_mem_cons.mp hOrigin
    refine List.forall_mem_cons.mpr ⟨?_, ih hrs⟩
    rw [hFirst.address]
    cases hSome : r.output.origin with
    | none => exact hBase
    | some origin => exact hr origin hSome

theorem link_of_image (h : p.linkSections base = .ok blocks) {image : List UInt8}
    (hImage : Block.image blocks = .ok image) : p.link base = .ok image := by
  simp only [link, h, hImage]

theorem link_of_image_error (h : p.linkSections base = .ok blocks) {d : Diagnostic}
    (hImage : Block.image blocks = .error d) : p.link base = .error (.single d) := by
  simp only [link, h, hImage]

/-- Where everything is in the image of a program with relocatable code at `base`. -/
structure ImageLayout (p : Program) (base : Value) : Prop where
  /-- The sections keep their lengths. Each is at its origin, or at the base. -/
  sections : ∀ blocks, p.linkSections base = .ok blocks →
    List.Forall₂ (Region.Becomes base) p.regions blocks
  /-- There is an image exactly if the sections can be linked and do not overlap. -/
  succeeds : (∃ image, p.link base = .ok image) ↔
    ∃ blocks, p.linkSections base = .ok blocks ∧ Block.Disjoint blocks
  /-- It shows all sections, and it is empty if they are. -/
  shows    : ∀ image, p.link base = .ok image → ∃ blocks, p.linkSections base = .ok blocks ∧
    (Block.occupied blocks = [] ∧ image = [] ∨
      ∃ start, Block.Depicts start (Block.occupied blocks) image)
  /-- Sections that overlap are reported. -/
  overlaps : ∀ blocks, p.linkSections base = .ok blocks → ¬ Block.Disjoint blocks →
    ∃ d, p.link base = .error (.single d) ∧ Block.Collides (Block.occupied blocks) d
  /-- Differences of addresses do not wrap around. Nor do last addresses, unless a section is too long for any
  memory. -/
  noWrap   : ∀ blocks, p.linkSections base = .ok blocks → ∀ a ∈ blocks,
    (∀ b ∈ blocks, a.address ≤ b.address →
      0 ≤ (b.address - a.address).toInt ∧ (b.address - a.address).toInt = b.first - a.first) ∧
    (a.bytes ≠ [] → a.bytes.length ≤ 2 ^ 63 - 2 ^ 16 → a.last.toInt = a.stop - 1)

/-- A program has such an image if all its sections are at addresses below `2 ^ 16`. -/
theorem imageLayout_of_inside (hWell : p.WellFormed)
    (hInside : ∀ blocks, p.linkSections base = .ok blocks →
      ∀ b ∈ blocks, 0 ≤ b.address ∧ b.address ≤ 0xffff) : p.ImageLayout base where
  sections blocks h := becomes_of_linkSections hWell h
  succeeds := by
    constructor
    · rintro ⟨image, hImage⟩
      obtain ⟨blocks, hBlocks, hImage⟩ := link_eq_ok hImage
      refine ⟨blocks, hBlocks, ?_⟩
      exact (Block.exists_image_iff fun b hb => (hInside blocks hBlocks b hb).1).mp ⟨image, hImage⟩
    · rintro ⟨blocks, hBlocks, hDisjoint⟩
      obtain ⟨image, hImage⟩ :=
        (Block.exists_image_iff fun b hb => (hInside blocks hBlocks b hb).1).mpr hDisjoint
      exact ⟨image, link_of_image hBlocks hImage⟩
  shows image hImage := by
    obtain ⟨blocks, hBlocks, hImage⟩ := link_eq_ok hImage
    exact ⟨blocks, hBlocks, Block.depicts_image (fun b hb => (hInside blocks hBlocks b hb).1) hImage⟩
  overlaps blocks hBlocks hOverlap := by
    have hNonneg : ∀ b ∈ blocks, 0 ≤ b.address := fun b hb => (hInside blocks hBlocks b hb).1
    rw [← Block.exists_image_iff hNonneg] at hOverlap
    cases hImage : Block.image blocks with
    | ok image => exact absurd ⟨image, hImage⟩ hOverlap
    | error d =>
      exact ⟨d, link_of_image_error hBlocks hImage, Block.collides_of_image_error hNonneg hImage⟩
  noWrap blocks hBlocks a ha := by
    obtain ⟨hLow, hHigh⟩ := hInside blocks hBlocks a ha
    refine ⟨fun b hb hLe => ?_, Block.toInt_last hLow hHigh⟩
    have hDiff := Value.toInt_sub_of_nonneg hLow (Int64.le_trans hLow hLe)
    have hLe' : a.address.toInt ≤ b.address.toInt := Int64.le_iff_toInt_le.mp hLe
    exact ⟨by omega, hDiff⟩

end Program

namespace Family

variable {Mnemonic Mode Feature : Type} [DecidableEq Mode] [Flag Mode] [Flag Feature]
  {F : Family Mnemonic Mode Feature} {machine : Machine Feature} {policy : Policy} {source : String}
  {p : Program}

/-- All sections are loaded at addresses. -/
theorem inside_of_linkSections (hF : F.Shipped)
    (hAssembled : (F.assemble machine policy source).result = .ok p) {base : Value} (hLow : 0 ≤ base)
    (hHigh : base ≤ 0xffff) {blocks : List Block} (hBlocks : p.linkSections base = .ok blocks) :
    ∀ b ∈ blocks, 0 ≤ b.address ∧ b.address ≤ 0xffff := by
  have hWell := wellFormed_program hAssembled
  refine Program.forall_address_of_becomes (P := fun v => 0 ≤ v ∧ v ≤ 0xffff)
    (Program.becomes_of_linkSections hWell hBlocks) ?_ ⟨hLow, hHigh⟩
  intro r hr origin hOrigin
  obtain ⟨i, hi⟩ := List.mem_iff_getElem?.mp hr
  rw [← hF.highestAddress_eq]
  exact (arranged_program hAssembled).inside i r hi origin hOrigin

/-- **The layout of an image.** -/
theorem image_layout (hF : F.Shipped) (hAssembled : (F.assemble machine policy source).result = .ok p)
    {base : Value} (hLow : 0 ≤ base) (hHigh : base ≤ 0xffff) : p.ImageLayout base :=
  Program.imageLayout_of_inside (wellFormed_program hAssembled) fun _ hBlocks =>
    inside_of_linkSections hF hAssembled hLow hHigh hBlocks

set_option maxRecDepth 10000 in
/-- A relocatable byte in front of another byte at one base, and in its place at another. -/
theorem image_layout_base :
    ∃ p, (Mos65.family.assemble { features := {.base} } {} "nop\n.org 4\nrts\n").result = .ok p ∧
      (0 : Value) ≤ 1 ∧ (1 : Value) ≤ 0xffff ∧ p.ImageLayout 1 ∧ (∃ image, p.link 1 = .ok image) ∧
      (0 : Value) ≤ 4 ∧ (4 : Value) ≤ 0xffff ∧ p.ImageLayout 4 ∧ ¬ ∃ image, p.link 4 = .ok image := by
  have hCheck : ((Mos65.family.assemble { features := {.base} } {}
      "nop\n.org 4\nrts\n").result.toOption.any fun p =>
        (p.linkSections 1).toOption == some [⟨1, [0xea], ⟨0, 0⟩⟩, ⟨4, [0x60], ⟨5, 3⟩⟩] &&
        (p.linkSections 4).toOption == some [⟨4, [0xea], ⟨0, 0⟩⟩, ⟨4, [0x60], ⟨5, 3⟩⟩]) = true := by
    decide +kernel
  have hApart : Block.Disjoint [⟨1, [0xea], ⟨0, 0⟩⟩, ⟨4, [0x60], ⟨5, 3⟩⟩] := by
    unfold Block.Disjoint Block.Apart
    decide
  have hOverlap : ¬ Block.Disjoint [⟨4, [0xea], ⟨0, 0⟩⟩, ⟨4, [0x60], ⟨5, 3⟩⟩] := by
    unfold Block.Disjoint Block.Apart
    decide
  obtain ⟨p, hp, hLinks⟩ := (Option.any_eq_true _ _).mp hCheck
  rw [Bool.and_eq_true, beq_iff_eq, beq_iff_eq] at hLinks
  have hAssembled := Action.ok_of_toOption hp
  have hOne : p.ImageLayout 1 := image_layout .mos65 hAssembled (by decide) (by decide)
  have hFour : p.ImageLayout 4 := image_layout .mos65 hAssembled (by decide) (by decide)
  refine ⟨p, hAssembled, by decide, by decide, hOne, ?_, by decide, by decide, hFour, ?_⟩
  · exact hOne.succeeds.mpr ⟨_, Action.ok_of_toOption hLinks.1, hApart⟩
  · intro hSome
    obtain ⟨blocks, hBlocks, hDisjoint⟩ := hFour.succeeds.mp hSome
    have hEq := hBlocks.symm.trans (Action.ok_of_toOption hLinks.2)
    obtain rfl := Except.ok.inj hEq
    exact hOverlap hDisjoint

end Family

end CrossAsm
