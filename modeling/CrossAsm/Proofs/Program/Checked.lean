import CrossAsm.Proofs.Program.Layout

/-!
# CrossAsm — linking by checked steps

Linking writes into slices of the sections and lays blocks out by the distances of their addresses. Here are the same
steps with a refusal: of a slice that is not in the data, and of a distance that is no length. A program that was
assembled from a source is linked without any.

* `Block.layOutChecked?_eq` — blocks in the order of their addresses are laid out.
* `Program.linkChecked?_eq` — a program is linked if its sections are well-formed and loaded at addresses.
-/

namespace CrossAsm

namespace Block

variable {start : Value} {blocks bs : List Block}

/-- Lays blocks out by their distances from the start. There is no result if a distance is no length. -/
def layOutChecked? (start : Value) : List UInt8 → List Block → Option (Except Diagnostic (List UInt8))
  | image, [] => some (.ok image)
  | image, b :: bs =>
    let distance := b.address.toInt - start.toInt
    if 0 ≤ distance ∧ distance < 2 ^ 63 then
      if distance < image.length then
        some (.error (.overlappingSections b.address (start + Value.ofNat image.length - 1) b.span))
      else layOutChecked? start (image ++ List.replicate (distance.toNat - image.length) 0 ++ b.bytes) bs
    else none

/-- Blocks side by side in the order of their addresses, by checked distances. -/
def imageChecked? (blocks : List Block) : Option (Except Diagnostic (List UInt8)) :=
  match ordered blocks with
  | [] => some (.ok [])
  | first :: others => layOutChecked? first.address [] (first :: others)

/-- Every distance from an address to a later one is a length. -/
theorem layOutChecked?_eq (hStart : 0 ≤ start) (hs : ∀ b ∈ bs, start ≤ b.address) (image : List UInt8) :
    layOutChecked? start image bs = some (layOut start image bs) := by
  induction bs generalizing image with
  | nil => rfl
  | cons b bs ih =>
    obtain ⟨hb, hs⟩ := List.forall_mem_cons.mp hs
    have hLow : 0 ≤ start.toInt := Int64.le_iff_toInt_le.mp hStart
    have hLe : start.toInt ≤ b.address.toInt := Int64.le_iff_toInt_le.mp hb
    have hHigh : b.address.toInt < 2 ^ 63 := b.address.toInt_lt
    rw [layOutChecked?, layOut_cons_eq hStart hb, if_pos (by omega)]
    have hIff : b.address.toInt - start.toInt < image.length ↔ b.first < start.toInt + image.length := by
      unfold first
      omega
    by_cases hInside : b.first < start.toInt + image.length
    · rw [if_pos hInside, if_pos (hIff.mpr hInside)]
    · rw [if_neg hInside, if_neg (mt hIff.mp hInside)]
      exact ih hs _

theorem imageChecked?_eq (hs : ∀ b ∈ blocks, 0 ≤ b.address) :
    imageChecked? blocks = some (Block.image blocks) := by
  have hSorted := pairwise_ordered blocks
  unfold imageChecked?
  split
  · next hList => rw [image_of_ordered_nil hList]
  · next b bs hList =>
    rw [hList] at hSorted
    have hMem : b ∈ ordered blocks := hList ▸ List.mem_cons_self
    have hFirst : ∀ a ∈ b :: bs, b.address ≤ a.address :=
      List.forall_mem_cons.mpr ⟨Int64.le_refl _, (List.pairwise_cons.mp hSorted).1⟩
    rw [layOutChecked?_eq (hs b (mem_ordered.mp hMem).1) hFirst, image_eq_layOut hList]

end Block

namespace Program

variable {p : Program} {base : Value}

/-- Links regions by checked writes. -/
def linkRegionsChecked? (t : SymbolTable) (base : Value) :
    List Region → Option (List Block × List Diagnostic)
  | [] => some ([], [])
  | r :: rs => do
    let (blocks, errors) ← linkRegionsChecked? t base rs
    match ← r.output.linkChecked? t base with
    | .ok bytes => return (⟨r.load base, bytes, r.span⟩ :: blocks, errors)
    | .error first => return (blocks, first ++ errors)

/-- The image of a program by checked writes and checked distances. -/
def linkChecked? (p : Program) (base : Value) : Option (Except Failure (List UInt8)) := do
  match ← linkRegionsChecked? p.symbols base p.regions with
  | (blocks, []) => return (← Block.imageChecked? blocks).mapError .single
  | (_, errors) => return .error (.collected errors)

theorem linkRegionsChecked?_eq {t : SymbolTable} {rs : List Region}
    (hWell : ∀ r ∈ rs, r.output.WellFormed) :
    linkRegionsChecked? t base rs = some (linkRegions t base rs) := by
  induction rs with
  | nil => rfl
  | cons r rs ih =>
    obtain ⟨hr, hrs⟩ := List.forall_mem_cons.mp hWell
    simp only [linkRegionsChecked?, ih hrs, hr.linkChecked?_eq, linkRegions, Region.link,
      Option.bind_eq_bind, Option.bind_some]
    cases r.output.link t base with
    | ok bytes => rfl
    | error errors => rfl

/-- **A program is linked by checked steps** if its sections are well-formed and loaded at addresses. -/
theorem linkChecked?_eq (hWell : p.WellFormed)
    (hAddress : ∀ blocks, p.linkSections base = .ok blocks → ∀ b ∈ blocks, 0 ≤ b.address) :
    p.linkChecked? base = some (p.link base) := by
  unfold linkChecked? link
  rw [linkRegionsChecked?_eq hWell]
  unfold linkSections at hAddress ⊢
  cases hLinked : linkRegions p.symbols base p.regions with
  | mk blocks errors =>
    rw [hLinked] at hAddress
    cases errors with
    | cons d errors => rfl
    | nil =>
      simp only [Option.bind_eq_bind, Option.bind_some, Block.imageChecked?_eq (hAddress blocks rfl)]
      cases Block.image blocks with
      | ok image => rfl
      | error d => rfl

end Program

end CrossAsm
