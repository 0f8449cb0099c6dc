import CrossAsm.Proofs.Section.Layout

/-!
# CrossAsm — linking a section

Linking writes the value of every patch over the zeros reserved for it. In a well-formed section the
fields do not overlap, so each can be read back from the result, all other bytes are what they were, and
no write leaves the data. What fails is listed patch by patch.

Main results:

* `fillAll_*`: what filling in a list of patches does to a byte inside a field, to a byte outside all
  fields, and to the list of errors; each by induction on the patches.
* `fillChecked?_eq`: the same with writes that refuse to leave the data.
* `journal_link`: a section keeps its layout through every sequence of edits, and links field by field.
-/

namespace CrossAsm

namespace Section

-- --------
-- Fields of a list of bytes
-- --------

/-- The bytes of a field. -/
def field (data : List UInt8) (offset size : Nat) : List UInt8 := (data.drop offset).take size

/-- A field is one field behind another. -/
theorem field_add (data : List UInt8) (offset size more : Nat) :
    field data offset (size + more) = field data offset size ++ field data (offset + size) more := by
  simp only [field, List.take_add, List.drop_drop]

/-- Data that agree on the bytes of a field have the same field. -/
theorem field_congr {a b : List UInt8} {offset size : Nat}
    (h : ∀ i, offset ≤ i → i < offset + size → a[i]? = b[i]?) :
    field a offset size = field b offset size := by
  apply List.ext_getElem?
  intro i
  simp only [field, List.getElem?_take, List.getElem?_drop]
  split
  · exact h (offset + i) (by omega) (by omega)
  · rfl

theorem field_append_left {a : List UInt8} (b : List UInt8) {offset size : Nat}
    (h : offset + size ≤ a.length) : field (a ++ b) offset size = field a offset size := by
  apply field_congr
  intro i _ hHigh
  rw [List.getElem?_append_left (by omega)]

theorem field_append_right (a b : List UInt8) : field (a ++ b) a.length b.length = b := by
  simp [field]

-- --------
-- Writing one field
-- --------

section Overwrite

variable {data bytes : List UInt8} {offset : Nat}

theorem length_overwrite (h : offset + bytes.length ≤ data.length) :
    (overwrite data offset bytes).length = data.length := by
  simp only [overwrite, List.length_append, List.length_take, List.length_drop]
  omega

/-- A byte outside the written field is what it was. -/
theorem getElem?_overwrite_outside (h : offset + bytes.length ≤ data.length) {i : Nat}
    (hi : i < offset ∨ offset + bytes.length ≤ i) :
    (overwrite data offset bytes)[i]? = data[i]? := by
  have hTake : (data.take offset).length = offset := by
    rw [List.length_take]
    omega
  rw [overwrite, List.append_assoc]
  rcases hi with hi | hi
  · rw [List.getElem?_append_left (by omega), List.getElem?_take, if_pos hi]
  · rw [List.getElem?_append_right (by omega), hTake, List.getElem?_append_right (by omega),
      List.getElem?_drop]
    congr 1
    omega

/-- The written field holds what was written. -/
theorem field_overwrite (h : offset + bytes.length ≤ data.length) :
    field (overwrite data offset bytes) offset bytes.length = bytes := by
  have hTake : (data.take offset).length = offset := by
    rw [List.length_take]
    omega
  have hRight := field_append_right (data.take offset) bytes
  rw [hTake] at hRight
  rw [overwrite, field_append_left _ (Nat.le_of_eq (by rw [List.length_append, hTake]))]
  exact hRight

end Overwrite

-- --------
-- One patch
-- --------

/-- Why a patch cannot be filled in: its expression has no value, or one that its width does not
take. -/
def failure? (t : SymbolTable) (base : Value) (p : Patch) : Option Diagnostic :=
  match t.evaluate base p.expr with
  | .error d => some d
  | .ok v =>
    if p.width.low ≤ v ∧ v ≤ p.width.high then none
    else some (.patchOutOfRange v p.width.bits p.width.isSigned p.expr.span)

variable {t : SymbolTable} {base : Value} {p : Patch}

/-- Only an evaluation can miss a definition. -/
theorem evaluate_of_failure? {name : String} {usage : Span}
    (h : failure? t base p = some (.unresolvedSymbol name usage)) :
    t.evaluate base p.expr = .error (.unresolvedSymbol name usage) := by
  unfold failure? at h
  split at h
  · next hError => rw [hError, Option.some.inj h]
  · split at h <;> cases h

/-- A patch is filled in exactly if its expression has a value that fits. -/
theorem failure?_eq_none_iff :
    failure? t base p = none ↔
      ∃ v, t.evaluate base p.expr = .ok v ∧ p.width.low ≤ v ∧ v ≤ p.width.high := by
  unfold failure?
  cases t.evaluate base p.expr with
  | error d => simp
  | ok v => simp

theorem fill_eq_ok_iff {bytes : List UInt8} :
    fill t base p = .ok bytes ↔
      ∃ v, t.evaluate base p.expr = .ok v ∧ p.width.fits v = true ∧ bytes = p.width.encode v := by
  unfold fill
  cases t.evaluate base p.expr with
  | error d => simp
  | ok v =>
    simp only [Except.ok.injEq, exists_eq_left']
    split
    · rename_i hFits
      simp only [Except.ok.injEq, hFits, true_and]
      exact eq_comm
    · rename_i hFits
      simp [hFits]

theorem fill_eq_error_iff {d : Diagnostic} :
    fill t base p = .error d ↔ failure? t base p = some d := by
  unfold fill failure?
  cases t.evaluate base p.expr with
  | error d' => simp
  | ok v =>
    simp only [← Width.fits_iff]
    split <;> simp

theorem failure?_eq_none_of_fill {bytes : List UInt8} (h : fill t base p = .ok bytes) :
    failure? t base p = none := by
  cases hFailure : failure? t base p with
  | none => rfl
  | some d =>
    rw [fill_eq_error_iff.mpr hFailure] at h
    cases h

theorem length_of_fill {bytes : List UInt8} (h : fill t base p = .ok bytes) :
    bytes.length = p.width.size := by
  obtain ⟨v, -, -, rfl⟩ := fill_eq_ok_iff.mp h
  exact p.width.length_encode v

/-- What is filled in has room where the patch has. -/
theorem bound_of_fill {data bytes : List UInt8} (h : fill t base p = .ok bytes) (hInside : p.stop ≤ data.length) :
    p.offset + bytes.length ≤ data.length := by
  rw [length_of_fill h]
  exact hInside

-- --------
-- All patches
-- --------

/-- The errors are those of the failing patches, in their order. -/
theorem fillAll_errors (data : List UInt8) (ps : List Patch) :
    (fillAll t base data ps).2 = ps.filterMap (failure? t base) := by
  induction ps generalizing data with
  | nil => rfl
  | cons p ps ih =>
    rw [fillAll]
    cases hFill : fill t base p with
    | ok bytes =>
      rw [List.filterMap_cons, failure?_eq_none_of_fill hFill]
      exact ih _
    | error d =>
      rw [List.filterMap_cons, fill_eq_error_iff.mp hFill]
      exact congrArg (d :: ·) (ih data)

/-- Filling in keeps the length of the data. -/
theorem fillAll_length (data : List UInt8) (ps : List Patch)
    (hInside : ∀ p ∈ ps, p.stop ≤ data.length) :
    (fillAll t base data ps).1.length = data.length := by
  induction ps generalizing data with
  | nil => rfl
  | cons p ps ih =>
    have hHere := hInside p (List.mem_cons_self ..)
    have hRest : ∀ q ∈ ps, q.stop ≤ data.length := fun q hq => hInside q (List.mem_cons_of_mem _ hq)
    rw [fillAll]
    cases hFill : fill t base p with
    | ok bytes =>
      have hLength := length_overwrite (bound_of_fill hFill hHere)
      rw [ih _ (by rw [hLength]; exact hRest), hLength]
    | error d => exact ih data hRest

/-- A byte outside all fields is what it was. -/
theorem fillAll_outside (data : List UInt8) (ps : List Patch)
    (hInside : ∀ p ∈ ps, p.stop ≤ data.length) {i : Nat}
    (hi : ∀ p ∈ ps, i < p.offset ∨ p.stop ≤ i) :
    (fillAll t base data ps).1[i]? = data[i]? := by
  induction ps generalizing data with
  | nil => rfl
  | cons p ps ih =>
    have hHere := hInside p (List.mem_cons_self ..)
    have hRest : ∀ q ∈ ps, q.stop ≤ data.length := fun q hq => hInside q (List.mem_cons_of_mem _ hq)
    have hiRest : ∀ q ∈ ps, i < q.offset ∨ q.stop ≤ i := fun q hq => hi q (List.mem_cons_of_mem _ hq)
    rw [fillAll]
    cases hFill : fill t base p with
    | ok bytes =>
      have hBound := bound_of_fill hFill hHere
      rw [ih _ (by rw [length_overwrite hBound]; exact hRest) hiRest]
      apply getElem?_overwrite_outside hBound
      rw [length_of_fill hFill]
      exact hi p (List.mem_cons_self ..)
    | error d => exact ih data hRest hiRest

/-- The field of a patch that can be filled in holds its bytes: no later patch writes over it. -/
theorem fillAll_field (data : List UInt8) (ps : List Patch)
    (hOrdered : ps.Pairwise fun p q => p.stop ≤ q.offset)
    (hInside : ∀ p ∈ ps, p.stop ≤ data.length) {bytes : List UInt8} (hp : p ∈ ps)
    (hFill : fill t base p = .ok bytes) :
    field (fillAll t base data ps).1 p.offset p.width.size = bytes := by
  induction ps generalizing data with
  | nil => cases hp
  | cons q ps ih =>
    obtain ⟨hBehind, hOrderedRest⟩ := List.pairwise_cons.mp hOrdered
    have hHere := hInside q (List.mem_cons_self ..)
    have hRest : ∀ r ∈ ps, r.stop ≤ data.length := fun r hr => hInside r (List.mem_cons_of_mem _ hr)
    rcases List.mem_cons.mp hp with rfl | hp
    · have hBytes := length_of_fill hFill
      have hBound := bound_of_fill hFill hHere
      rw [fillAll, hFill]
      have hKept : field (fillAll t base (overwrite data p.offset bytes) ps).1 p.offset p.width.size =
          field (overwrite data p.offset bytes) p.offset p.width.size := by
        apply field_congr
        intro i _ hHigh
        apply fillAll_outside _ _ (by rw [length_overwrite hBound]; exact hRest)
        intro r hr
        have hr' := hBehind r hr
        simp only [Patch.stop] at hr'
        exact Or.inl (by omega)
      rw [← hBytes] at hKept ⊢
      rw [hKept]
      exact field_overwrite hBound
    · rw [fillAll]
      cases hFillQ : fill t base q with
      | ok bytesQ =>
        have hLength := length_overwrite (bound_of_fill hFillQ hHere)
        exact ih _ hOrderedRest (by rw [hLength]; exact hRest) hp
      | error d => exact ih data hOrderedRest hRest hp

-- --------
-- Writes that refuse to leave the data
-- --------

/-- Copies bytes over the slice from `start` to `stop`. There is no result if the slice is not in the
data or not as long as the bytes. -/
def writeSlice? (data : List UInt8) (start stop : Nat) (bytes : List UInt8) : Option (List UInt8) :=
  if start ≤ stop ∧ stop ≤ data.length ∧ bytes.length = stop - start then
    some (overwrite data start bytes)
  else none

/-- Fills in patches by checked writes. -/
def fillChecked? (t : SymbolTable) (base : Value) :
    List UInt8 → List Patch → Option (List UInt8 × List Diagnostic)
  | data, [] => some (data, [])
  | data, p :: ps =>
    match fill t base p with
    | .ok bytes => do fillChecked? t base (← writeSlice? data p.offset p.stop bytes) ps
    | .error d => (fillChecked? t base data ps).map fun (data', errors) => (data', d :: errors)

/-- Links by checked writes. -/
def linkChecked? (s : Section) (t : SymbolTable) (base : Value) :
    Option (Except (List Diagnostic) (List UInt8)) :=
  (fillChecked? t base s.data s.patches).map fun
    | (data, []) => .ok data
    | (_, errors) => .error errors

/-- No write leaves the data if the patches lie in it. -/
theorem fillChecked?_eq (data : List UInt8) (ps : List Patch)
    (hInside : ∀ p ∈ ps, p.stop ≤ data.length) :
    fillChecked? t base data ps = some (fillAll t base data ps) := by
  induction ps generalizing data with
  | nil => rfl
  | cons p ps ih =>
    have hHere := hInside p (List.mem_cons_self ..)
    have hRest : ∀ q ∈ ps, q.stop ≤ data.length := fun q hq => hInside q (List.mem_cons_of_mem _ hq)
    rw [fillChecked?, fillAll]
    cases hFill : fill t base p with
    | ok bytes =>
      have hBytes := length_of_fill hFill
      have hSlice : writeSlice? data p.offset p.stop bytes = some (overwrite data p.offset bytes) := by
        apply if_pos
        simp only [Patch.stop] at hHere ⊢
        omega
      have hLength := length_overwrite (bound_of_fill hFill hHere)
      simp only [hSlice]
      exact ih _ (by rw [hLength]; exact hRest)
    | error d => simp only [ih data hRest, Option.map_some]

-- --------
-- Linking
-- --------

variable {s : Section} {out : List UInt8} {errors : List Diagnostic}

theorem link_eq_ok_iff :
    s.link t base = .ok out ↔
      s.patches.filterMap (failure? t base) = [] ∧ out = (fillAll t base s.data s.patches).1 := by
  rw [← fillAll_errors s.data s.patches]
  unfold link
  split
  · rename_i data hFill
    rw [hFill, Except.ok.injEq, eq_comm]
    exact (and_iff_right rfl).symm
  · rename_i data errs hErrs hFill
    rw [hFill]
    simp only [reduceCtorEq, false_iff, not_and]
    intro hNil
    exact absurd hNil hErrs

theorem link_eq_error_iff :
    s.link t base = .error errors ↔
      s.patches.filterMap (failure? t base) = errors ∧ errors ≠ [] := by
  rw [← fillAll_errors s.data s.patches]
  unfold link
  split
  · rename_i data hFill
    rw [hFill]
    simp only [reduceCtorEq, false_iff, not_and]
    intro hNil hNot
    exact hNot hNil.symm
  · rename_i data errs hErrs hFill
    rw [hFill, Except.error.injEq]
    constructor
    · rintro rfl
      exact ⟨rfl, fun hNil => hErrs hNil⟩
    · exact And.left

/-- A section links exactly if every patch has a value that its width takes. -/
theorem exists_link_ok_iff :
    (∃ out, s.link t base = .ok out) ↔
      ∀ p ∈ s.patches, ∃ v, t.evaluate base p.expr = .ok v ∧ p.width.low ≤ v ∧ v ≤ p.width.high := by
  have hNone : s.patches.filterMap (failure? t base) = [] ↔
      ∀ p ∈ s.patches, failure? t base p = none := List.filterMap_eq_nil_iff
  constructor
  · rintro ⟨out, hOut⟩ p hp
    exact failure?_eq_none_iff.mp (hNone.mp (link_eq_ok_iff.mp hOut).1 p hp)
  · intro hAll
    exact ⟨_, link_eq_ok_iff.mpr ⟨hNone.mpr fun p hp => failure?_eq_none_iff.mpr (hAll p hp), rfl⟩⟩

/-- Every patch of a section that links is filled in. -/
theorem exists_fill_of_link (h : s.link t base = .ok out) (hp : p ∈ s.patches) :
    ∃ v, t.evaluate base p.expr = .ok v ∧ p.width.fits v = true ∧
      fill t base p = .ok (p.width.encode v) := by
  obtain ⟨v, hv, hLow, hHigh⟩ := exists_link_ok_iff.mp ⟨out, h⟩ p hp
  have hFits := Width.fits_iff.mpr ⟨hLow, hHigh⟩
  exact ⟨v, hv, hFits, fill_eq_ok_iff.mpr ⟨v, hv, hFits, rfl⟩⟩

namespace WellFormed

variable (hWell : s.WellFormed)
include hWell

theorem length_link (h : s.link t base = .ok out) : out.length = s.data.length := by
  obtain ⟨-, rfl⟩ := link_eq_ok_iff.mp h
  exact fillAll_length _ _ hWell.inside

/-- The field of a patch holds the bytes of its value. -/
theorem field_link (h : s.link t base = .ok out) (hp : p ∈ s.patches) :
    ∃ v, t.evaluate base p.expr = .ok v ∧ p.width.fits v = true ∧
      field out p.offset p.width.size = p.width.encode v := by
  obtain ⟨v, hv, hFits, hFill⟩ := exists_fill_of_link h hp
  obtain ⟨-, rfl⟩ := link_eq_ok_iff.mp h
  exact ⟨v, hv, hFits, fillAll_field _ _ hWell.ordered hWell.inside hp hFill⟩

theorem getElem?_link_outside (h : s.link t base = .ok out) {i : Nat}
    (hi : ∀ p ∈ s.patches, i < p.offset ∨ p.stop ≤ i) : out[i]? = s.data[i]? := by
  obtain ⟨-, rfl⟩ := link_eq_ok_iff.mp h
  exact fillAll_outside _ _ hWell.inside hi

theorem linkChecked?_eq (t : SymbolTable) (base : Value) :
    s.linkChecked? t base = some (s.link t base) := by
  unfold linkChecked? link
  rw [fillChecked?_eq _ _ hWell.inside]
  rfl

end WellFormed

end Section

/--
**Layout and linking of a section.** After every sequence of edits the patches stand in strictly
ascending order without overlapping, inside the data and over zeros, and going back to a live checkpoint
gives exactly the bytes and patches it was taken at. At every base and with every symbol table, no write
of linking leaves the data; linking succeeds exactly if every patch has a value in the range of its
width. The result then has the length of the data, every field holds the value of its patch modulo
`2 ^ bits` and all other bytes are unchanged; otherwise there is one error for each failing patch, in the
order of the patches.
-/
theorem journal_link (origin : Option Value) (edits : List Edit) (j : Journal)
    (h : Journal.run? ⟨{ origin }, []⟩ edits = some j) :
    j.output.patches.Pairwise (fun p q => p.offset < q.offset) ∧
    j.output.patches.Pairwise (fun p q => p.stop ≤ q.offset) ∧
    (∀ p ∈ j.output.patches, p.stop ≤ j.output.data.length ∧
      ∀ i, p.offset ≤ i → i < p.stop → j.output.data[i]? = some 0) ∧
    (∀ (index : Nat) (old : Section), j.saved[index]? = some old →
      (j.output.rollback old.checkpoint).data = old.data ∧
      (j.output.rollback old.checkpoint).patches = old.patches) ∧
    (∀ t base,
      j.output.linkChecked? t base = some (j.output.link t base) ∧
      ((∃ out, j.output.link t base = .ok out) ↔ ∀ p ∈ j.output.patches,
        ∃ v, t.evaluate base p.expr = .ok v ∧ p.width.low ≤ v ∧ v ≤ p.width.high) ∧
      (∀ out, j.output.link t base = .ok out →
        out.length = j.output.data.length ∧
        (∀ p ∈ j.output.patches, ∃ v, t.evaluate base p.expr = .ok v ∧
          (p.width.decode (Section.field out p.offset p.width.size) : Int) =
            v.toInt % 2 ^ p.width.bits) ∧
        (∀ i, (∀ p ∈ j.output.patches, i < p.offset ∨ p.stop ≤ i) →
          out[i]? = j.output.data[i]?)) ∧
      (∀ errors, j.output.link t base = .error errors →
        errors = j.output.patches.filterMap (Section.failure? t base) ∧ errors ≠ [])) := by
  have hInv := Journal.run?_inv (Journal.inv_new origin) h
  have hWell := hInv.output
  refine ⟨hWell.ascending, hWell.ordered, ?_, ?_, ?_⟩
  · intro p hp
    exact ⟨hWell.inside p hp, hWell.zero p hp⟩
  · intro index old hOld
    rw [(hInv.saved old (List.mem_of_getElem? hOld)).2.rollback]
    exact ⟨rfl, rfl⟩
  · intro t base
    refine ⟨hWell.linkChecked?_eq t base, Section.exists_link_ok_iff, ?_, ?_⟩
    · intro out hOut
      refine ⟨hWell.length_link hOut, ?_, fun i hi => hWell.getElem?_link_outside hOut hi⟩
      intro p hp
      obtain ⟨v, hv, -, hField⟩ := hWell.field_link hOut hp
      refine ⟨v, hv, ?_⟩
      rw [hField]
      exact p.width.decode_encode v
    · intro errors hErrors
      obtain ⟨hAll, hSome⟩ := Section.link_eq_error_iff.mp hErrors
      exact ⟨hAll.symm, hSome⟩

/-- A deferred word and a byte behind it are given up again; the section goes on with a displacement and
a constant behind it, and its first byte can still be gone back to. -/
theorem journal_link_rollback :
    let edits : List Edit :=
      [.emit [0x4c], .checkpoint, .emitExpr (.symbol "far" ⟨0, 3⟩) .word, .checkpoint, .emit [0xff],
       .rollback 0, .emitExpr (.symbol "near" ⟨9, 4⟩) .signedByte,
       .emitExpr (.const 0x1234 ⟨14, 5⟩) .wordBigEndian]
    let start : Section := ⟨none, [0x4c], []⟩
    let output : Section :=
      ⟨none, [0x4c, 0, 0x12, 0x34], [⟨1, .signedByte, .symbol "near" ⟨9, 4⟩⟩]⟩
    Journal.run? ⟨{ origin := none }, []⟩ edits = some ⟨output, [start]⟩ ∧
      (output.rollback start.checkpoint).data = start.data ∧
      (∀ t base, output.linkChecked? t base = some (output.link t base)) ∧
      (∀ t base, (∃ out, output.link t base = .ok out) ↔ ∃ v,
        t.evaluate base (.symbol "near" ⟨9, 4⟩) = .ok v ∧ (-128 : Value) ≤ v ∧ v ≤ 127) := by
  intro edits start output
  have hRun : Journal.run? ⟨{ origin := none }, []⟩ edits = some ⟨output, [start]⟩ := by decide
  obtain ⟨-, -, -, hBack, hLink⟩ := journal_link none edits ⟨output, [start]⟩ hRun
  refine ⟨hRun, (hBack 0 start rfl).1, fun t base => (hLink t base).1, fun t base => ?_⟩
  rw [(hLink t base).2.1]
  exact List.forall_mem_singleton

end CrossAsm
