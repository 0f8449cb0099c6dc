import CrossAsm.Proofs.Value
import CrossAsm.Proofs.Program.Link

/-!
# CrossAsm — the image of a program

Blocks are laid side by side from the lowest address on. Offsets in the image are differences of addresses,
which wrap around; since no block may start inside the image that is there already, they are exact.

* `Block.Lowest` — where the image starts.
* `Block.Holds` — the bytes of a block are found at its address.
* `Block.holds_image` — an image holds all blocks that are not empty.
* `Program.shows_of_load` — so a byte of a region is found in the image by its address.
-/

namespace CrossAsm

namespace Value

/-- A value that is positive is the value of a count. -/
theorem eq_ofNat_of_toNat_pos {v : Value} (h : 0 < v.toInt.toNat) : v = ofNat v.toInt.toNat := by
  have hInt : (v.toInt.toNat : Int) = v.toInt := Int.toNat_of_nonneg (by omega)
  calc v = Int64.ofInt v.toInt := (Int64.ofInt_toInt v).symm
    _ = Int64.ofInt (v.toInt.toNat : Int) := by rw [hInt]
    _ = ofNat v.toInt.toNat := Int64.ofInt_eq_ofNat

theorem toNat_ofNat_of_lt {n : Nat} (h : n < 2 ^ 63) : (ofNat n).toInt.toNat = n := by
  have hInt : (ofNat n).toInt = n := by
    show (Int64.ofNat n).toInt = n
    rw [← Int64.ofInt_eq_ofNat]
    exact Int64.toInt_ofInt_of_le (by omega) (by omega)
  rw [hInt]
  exact Int.toNat_natCast n

theorem ofNat_add (m n : Nat) : ofNat (m + n) = ofNat m + ofNat n := Int64.ofNat_add m n

end Value

namespace Block

/-- `start` is the lowest address of a byte. -/
structure Lowest (blocks : List Block) (start : Value) : Prop where
  taken : ∃ b ∈ blocks, b.bytes ≠ [] ∧ b.address = start
  least : ∀ b ∈ blocks, b.bytes ≠ [] → start ≤ b.address

/-- In an image that starts at `start`, the bytes of the block stand at its address. -/
def Holds (start : Value) (image : List UInt8) (b : Block) : Prop :=
  ∃ k, b.address = start + Value.ofNat k ∧
    ∀ j, j < b.bytes.length → image[k + j]? = b.bytes[j]?

variable {start : Value} {image out : List UInt8} {b : Block} {bs blocks : List Block}

theorem Holds.mono (h : Holds start image b) (hPrefix : image <+: out) : Holds start out b := by
  obtain ⟨k, hAddress, hBytes⟩ := h
  refine ⟨k, hAddress, fun j hj => ?_⟩
  have hSome := hBytes j hj
  obtain ⟨more, rfl⟩ := hPrefix
  rw [List.getElem?_eq_getElem hj] at hSome ⊢
  rw [List.getElem?_append_left (List.getElem?_eq_some_iff.mp hSome).1]
  exact hSome

/-- A block that starts behind a non-empty image is laid at its address. -/
theorem holds_append (hImage : image ≠ []) (hBehind : image.length ≤ (b.address - start).toInt.toNat) :
    Holds start (image ++
      List.replicate ((b.address - start).toInt.toNat - image.length) 0 ++ b.bytes) b := by
  have hPos : 0 < image.length := List.length_pos_iff.mpr hImage
  have hOffset := Value.eq_ofNat_of_toNat_pos (v := b.address - start) (by omega)
  refine ⟨(b.address - start).toInt.toNat, ?_, fun j hj => ?_⟩
  · rw [← hOffset, Int64.add_comm, Int64.sub_add_cancel]
  · have hFront : (image ++
        List.replicate ((b.address - start).toInt.toNat - image.length) 0).length =
        (b.address - start).toInt.toNat := by
      rw [List.length_append, List.length_replicate]
      omega
    rw [List.getElem?_append_right (by omega), hFront, Nat.add_sub_cancel_left]

theorem layOut_cons (h : layOut start image (b :: bs) = .ok out) :
    image.length ≤ (b.address - start).toInt.toNat ∧
      layOut start (image ++
        List.replicate ((b.address - start).toInt.toNat - image.length) 0 ++ b.bytes) bs = .ok out := by
  unfold layOut at h
  dsimp only at h
  split at h
  · cases h
  · next hLe => exact ⟨Nat.le_of_not_lt hLe, h⟩

/-- Laying out more blocks adds behind what is there. -/
theorem prefix_layOut (h : layOut start image bs = .ok out) : image <+: out := by
  induction bs generalizing image with
  | nil =>
    cases h
    exact List.prefix_rfl
  | cons b bs ih =>
    have hRest := ih (layOut_cons h).2
    rw [List.append_assoc] at hRest
    exact (List.prefix_append _ _).trans hRest

theorem holds_layOut (hImage : image ≠ []) (h : layOut start image bs = .ok out) (hb : b ∈ bs) :
    Holds start out b := by
  induction bs generalizing image with
  | nil => cases hb
  | cons first bs ih =>
    obtain ⟨hBehind, hRest⟩ := layOut_cons h
    rcases List.mem_cons.mp hb with rfl | hb
    · exact (holds_append hImage hBehind).mono (prefix_layOut hRest)
    · refine ih ?_ hRest hb
      simp [hImage]

/-- The blocks with bytes in the order of their addresses. -/
def ordered (blocks : List Block) : List Block :=
  (blocks.filter (!·.bytes.isEmpty)).mergeSort (fun a b => decide (a.address ≤ b.address))

theorem mem_ordered : b ∈ ordered blocks ↔ b ∈ blocks ∧ b.bytes ≠ [] := by
  unfold ordered
  rw [List.mem_mergeSort, List.mem_filter]
  simp

theorem pairwise_ordered (blocks : List Block) :
    (ordered blocks).Pairwise fun a b => a.address ≤ b.address := by
  have hSorted : (ordered blocks).Pairwise fun a b => decide (a.address ≤ b.address) = true := by
    refine List.pairwise_mergeSort (fun a b c hab hbc => ?_) (fun a b => ?_) _
    · rw [decide_eq_true_eq] at *
      exact Int64.le_trans hab hbc
    · rw [Bool.or_eq_true, decide_eq_true_eq, decide_eq_true_eq]
      exact Int64.le_total _ _
  exact hSorted.imp fun h => decide_eq_true_eq.mp h

theorem lowest_of_ordered {first : Block} {others : List Block}
    (h : ordered blocks = first :: others) : Lowest blocks first.address := by
  have hSorted := pairwise_ordered blocks
  rw [h, List.pairwise_cons] at hSorted
  have hFirst : first ∈ ordered blocks := by
    rw [h]
    exact List.mem_cons_self
  obtain ⟨hMem, hBytes⟩ := mem_ordered.mp hFirst
  refine ⟨⟨first, hMem, hBytes, rfl⟩, fun b hb hb' => ?_⟩
  have hOrdered := mem_ordered.mpr ⟨hb, hb'⟩
  rw [h] at hOrdered
  rcases List.mem_cons.mp hOrdered with rfl | hOther
  · exact Int64.le_refl _
  · exact hSorted.1 b hOther

/-- **An image holds its blocks**, from the lowest address on. -/
theorem holds_image (h : Block.image blocks = .ok image) (hb : b ∈ blocks) (hBytes : b.bytes ≠ []) :
    ∃ start, Lowest blocks start ∧ Holds start image b := by
  have hOrdered := mem_ordered.mpr ⟨hb, hBytes⟩
  unfold Block.image at h
  split at h
  · next hList =>
    rw [show ordered blocks = [] from hList] at hOrdered
    cases hOrdered
  · next first others hList =>
    have hList : ordered blocks = first :: others := hList
    refine ⟨first.address, lowest_of_ordered hList, ?_⟩
    have hFirst : first ∈ ordered blocks := by
      rw [hList]
      exact List.mem_cons_self
    have hRest := (layOut_cons h).2
    have hZero : (first.address - first.address).toInt.toNat = 0 := by
      rw [Int64.sub_self]
      rfl
    rw [hZero] at hRest
    rw [hList] at hOrdered
    rcases List.mem_cons.mp hOrdered with rfl | hOther
    · refine Holds.mono ⟨0, ?_, fun j hj => ?_⟩ (prefix_layOut hRest)
      · exact (Int64.add_zero _).symm
      · simp
    · exact holds_layOut (by simpa using (mem_ordered.mp hFirst).2) hRest hOther

/-- An image of one block is its bytes. -/
theorem image_singleton (b : Block) : Block.image [b] = .ok b.bytes := by
  unfold image
  cases hBytes : b.bytes with
  | nil => simp [hBytes]
  | cons byte bytes => simp [hBytes, layOut]

end Block

namespace Program

variable {p : Program} {base : Value} {image : List UInt8}

theorem link_eq_ok (h : p.link base = .ok image) :
    ∃ blocks, p.linkSections base = .ok blocks ∧ Block.image blocks = .ok image := by
  unfold link at h
  split at h
  · cases h
  · next blocks hBlocks =>
    refine ⟨blocks, hBlocks, ?_⟩
    split at h
    · next hImage =>
      cases h
      exact hImage
    · cases h

/-- A program with one region is linked to the bytes of the region. -/
theorem link_singleton {r : Region} (hRegions : p.regions = [r]) (h : p.link base = .ok image) :
    ∃ block, p.linkSections base = .ok [block] ∧ block.bytes = image ∧
      r.output.link p.symbols base = .ok image := by
  obtain ⟨blocks, hBlocks, hImage⟩ := link_eq_ok h
  obtain ⟨hErrors, rfl⟩ := linkSections_eq_ok_iff.mp hBlocks
  rw [hRegions] at hErrors
  obtain ⟨out, -, hLink⟩ := linkRegions_block hErrors (i := 0) rfl
  have hList : (linkRegions p.symbols base p.regions).1 = [⟨r.load base, out, r.span⟩] := by
    simp only [hRegions, linkRegions, Region.link, hLink]
  rw [hList] at hBlocks hImage
  rw [Block.image_singleton] at hImage
  obtain rfl := Except.ok.inj hImage
  exact ⟨_, hBlocks, rfl, hLink⟩

/-- The byte at `offset` in region `i`, if there is one, stands in the image at `v`, counted from the
lowest address of the program. -/
def Shows (p : Program) (base v : Value) (i offset : Nat) : Prop :=
  ∀ image, p.link base = .ok image → ∃ blocks block,
    p.linkSections base = .ok blocks ∧ blocks[i]? = some block ∧
      ∀ byte, block.bytes[offset]? = some byte → ∃ start k,
        Block.Lowest blocks start ∧ v = start + Value.ofNat k ∧ image[k]? = some byte ∧
          (image.length ≤ 2 ^ 63 → (v - start).toInt.toNat = k)

/-- **The image shows each byte at its address.** -/
theorem shows_of_load {i : Nat} {r : Region} (hr : p.regions[i]? = some r) (offset : Nat) :
    p.Shows base (r.load base + Value.ofNat offset) i offset := by
  intro image hLink
  obtain ⟨blocks, hBlocks, hImage⟩ := link_eq_ok hLink
  obtain ⟨block, hBlock, -⟩ := block_of_linkSections hBlocks hr
  refine ⟨blocks, block, hBlocks, hBlock, fun byte hByte => ?_⟩
  have hInside : offset < block.bytes.length := (List.getElem?_eq_some_iff.mp hByte).1
  have hBytes : block.bytes ≠ [] := List.length_pos_iff.mp (by omega)
  obtain ⟨start, hLowest, k, hAddress, hSame⟩ :=
    Block.holds_image hImage (List.mem_of_getElem? hBlock) hBytes
  have hFound : image[k + offset]? = some byte := (hSame offset hInside).trans hByte
  have hValue : r.load base + Value.ofNat offset = start + Value.ofNat (k + offset) := by
    rw [← address_of_linkSections hBlocks hr hBlock, hAddress, Value.ofNat_add, Int64.add_assoc]
  refine ⟨start, k + offset, hLowest, hValue, hFound, fun hLength => ?_⟩
  have hBelow : k + offset < image.length := (List.getElem?_eq_some_iff.mp hFound).1
  rw [hValue, Int64.add_comm, Int64.add_sub_cancel]
  exact Value.toNat_ofNat_of_lt (by omega)

end Program

end CrossAsm
