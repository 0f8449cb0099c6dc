import CrossAsm.Instruction
import CrossAsm.Proofs.Expr.Folding
import CrossAsm.Proofs.Section.Link

/-!
# CrossAsm — items in a section

An encoding is a list of items that are written into a section one behind the other. Once the section has
been continued in whatever way and linked, every item is found where it was written:

* `field_link_emit`: bytes are still the same bytes;
* `field_link_emitExpr`: a value is there in the bytes of its width, be it that it was known when it was
  written or that it was filled in;
* `field_link_writeAll`: hence so is every value in a list of items.
-/

namespace CrossAsm

/-- The number of bytes of an item. -/
def Item.size : Item → Nat
  | .bytes data => data.length
  | .value _ w => w.size

/-- The number of bytes of a list of items. -/
def Item.total : List Item → Nat
  | [] => 0
  | item :: items => item.size + total items

namespace Section

/-- Appends an item. -/
def write (s : Section) : Item → Section
  | .bytes bytes => s.emit bytes
  | .value e w => s.emitExpr e w

/-- Appends items one behind the other. -/
def writeAll (s : Section) (items : List Item) : Section := items.foldl write s

theorem writeAll_append (s : Section) (items more : List Item) :
    s.writeAll (items ++ more) = (s.writeAll items).writeAll more := List.foldl_append

@[simp] theorem size_write (s : Section) (item : Item) : (s.write item).size = s.size + item.size := by
  cases item with
  | bytes bytes => exact size_emit s bytes
  | value e w => exact size_emitExpr s e w

@[simp] theorem size_writeAll (s : Section) (items : List Item) :
    (s.writeAll items).size = s.size + Item.total items := by
  induction items generalizing s with
  | nil => rfl
  | cons item items ih =>
    show ((s.write item).writeAll items).size = _
    rw [ih, size_write, Item.total, Nat.add_assoc]

theorem Extends.writeAll (s : Section) (items : List Item) : s.Extends (s.writeAll items) := by
  induction items generalizing s with
  | nil => exact .refl s
  | cons item items ih =>
    refine Extends.trans ?_ (ih (s.write item))
    cases item with
    | bytes bytes => exact .emit s bytes
    | value e w => exact .emitExpr s e w

theorem WellFormed.writeAll {s : Section} (h : s.WellFormed) (items : List Item) :
    (s.writeAll items).WellFormed := by
  induction items generalizing s with
  | nil => exact h
  | cons item items ih =>
    apply ih
    cases item with
    | bytes bytes => exact h.emit bytes
    | value e w => exact h.emitExpr e w

-- --------
-- Finding what was written
-- --------

variable {s final : Section} {t : SymbolTable} {base : Value} {out : List UInt8}

/-- Bytes that were written are not touched by any patch. -/
theorem field_link_emit {bytes : List UInt8} (hWell : s.WellFormed)
    (hMore : (s.emit bytes).Extends final) (hFinal : final.WellFormed)
    (hLink : final.link t base = .ok out) : field out s.size bytes.length = bytes := by
  obtain ⟨rest, hData⟩ := hMore.data
  obtain ⟨more, hPatches, hBehind⟩ := hMore.patches
  have hLength : (s.emit bytes).data.length = s.data.length + bytes.length := List.length_append
  have hSame : field out s.size bytes.length = field final.data s.size bytes.length := by
    apply field_congr
    intro i hLow hHigh
    apply hFinal.getElem?_link_outside hLink
    intro p hp
    rw [hPatches] at hp
    simp only [size] at hLow hHigh
    -- Earlier patches end in front of the bytes and later ones start behind them.
    rcases List.mem_append.mp hp with hp | hp
    · have hInside := hWell.inside p hp
      omega
    · have hStart := hBehind p hp
      omega
  rw [hSame, ← hData, field_append_left rest (by rw [hLength]; exact Nat.le_refl _)]
  exact field_append_right s.data bytes

/-- A value that was not known when it was written has a patch. -/
theorem mem_patches_of_emitExpr {e : Expr} {w : Width} (hMore : (s.emitExpr e w).Extends final)
    (hLate : e.value? = none) : ⟨s.size, w, e⟩ ∈ final.patches := by
  obtain ⟨more, hPatches, -⟩ := hMore.patches
  rw [hPatches]
  simp [emitExpr, hLate]

/-- A value stands in the bytes of its width where it was written. -/
theorem field_link_emitExpr {e : Expr} {w : Width} (hWell : s.WellFormed)
    (hMore : (s.emitExpr e w).Extends final) (hFinal : final.WellFormed)
    (hLink : final.link t base = .ok out) :
    ∃ v, t.evaluate base e = .ok v ∧ (e.value? = none → w.fits v = true) ∧
      field out s.size w.size = w.encode v := by
  cases hValue : e.value? with
  | some v =>
    refine ⟨v, Expr.evaluate_of_value? hValue, nofun, ?_⟩
    have hEmit : s.emitExpr e w = s.emit (w.encode v) := by
      simp only [emitExpr, hValue]
    rw [hEmit] at hMore
    have hField := field_link_emit hWell hMore hFinal hLink
    rwa [Width.length_encode] at hField
  | none =>
    obtain ⟨v, hEval, hFits, hField⟩ := hFinal.field_link hLink (mem_patches_of_emitExpr hMore hValue)
    exact ⟨v, hEval, fun _ => hFits, hField⟩

/-- The section as it was when one of the items was written is continued by the final one. -/
theorem extends_of_writeAll {items : List Item} {k : Nat} {item : Item}
    (hMore : (s.writeAll items).Extends final) (hItem : items[k]? = some item) :
    ((s.writeAll (items.take k)).write item).Extends final := by
  obtain ⟨hk, rfl⟩ := List.getElem?_eq_some_iff.mp hItem
  have hSplit : items = items.take k ++ items[k] :: items.drop (k + 1) := by
    rw [List.getElem_cons_drop, List.take_append_drop]
  rw [hSplit, writeAll_append] at hMore
  exact (Extends.writeAll _ (items.drop (k + 1))).trans hMore

/-- A value in a list of items that was not known has a patch. -/
theorem mem_patches_of_writeAll {items : List Item} {k : Nat} {e : Expr} {w : Width}
    (hMore : (s.writeAll items).Extends final) (hItem : items[k]? = some (.value e w))
    (hLate : e.value? = none) : ⟨s.size + Item.total (items.take k), w, e⟩ ∈ final.patches := by
  have hMem := mem_patches_of_emitExpr (extends_of_writeAll hMore hItem) hLate
  rwa [size_writeAll] at hMem

/-- A value stands where it was written in a list of items. -/
theorem field_link_writeAll {items : List Item} {k : Nat} {e : Expr} {w : Width}
    (hWell : s.WellFormed) (hMore : (s.writeAll items).Extends final)
    (hItem : items[k]? = some (.value e w)) (hFinal : final.WellFormed)
    (hLink : final.link t base = .ok out) :
    ∃ v, t.evaluate base e = .ok v ∧ (e.value? = none → w.fits v = true) ∧
      field out (s.size + Item.total (items.take k)) w.size = w.encode v := by
  have hField := field_link_emitExpr (hWell.writeAll (items.take k))
    (extends_of_writeAll hMore hItem) hFinal hLink
  rwa [size_writeAll] at hField

-- --------
-- What is left to the linker
-- --------

/-- The patches of items are those of their values that were not known. -/
theorem patch_of_writeAll {items : List Item} {q : Patch} (hq : q ∈ (s.writeAll items).patches) :
    q ∈ s.patches ∨ .value q.expr q.width ∈ items := by
  induction items generalizing s with
  | nil => exact .inl hq
  | cons item items ih =>
    rcases ih (s := s.write item) hq with hq | hMem
    · cases item with
      | bytes bytes => exact .inl hq
      | value e w =>
        simp only [write, emitExpr] at hq
        split at hq
        · exact .inl hq
        · rcases List.mem_append.mp hq with hq | hq
          · exact .inl hq
          · rw [List.mem_singleton.mp hq]
            exact .inr List.mem_cons_self
    · exact .inr (List.mem_cons_of_mem _ hMem)

/-- The patches from one offset to another can be filled in. -/
def FillsBetween (t : SymbolTable) (base : Value) (start stop : Nat) (s : Section) : Prop :=
  ∀ q ∈ s.patches, start ≤ q.offset → q.offset < stop → ∃ bytes, fill t base q = .ok bytes

/-- **Items can be linked** if each of their values is known then and fits, whatever was written behind
them. -/
theorem fillsBetween_iff {items : List Item} (hWell : s.WellFormed)
    (hKnown : ∀ e w v, Item.value e w ∈ items → e.value? = some v → w.fits v = true)
    (hMore : (s.writeAll items).Extends final) :
    final.FillsBetween t base s.size (s.writeAll items).size ↔
      ∀ e w, Item.value e w ∈ items → ∃ v, t.evaluate base e = .ok v ∧ w.fits v = true := by
  constructor
  · intro hFills e w hMem
    cases hValue : e.value? with
    | some v => exact ⟨v, Expr.evaluate_of_value? hValue, hKnown e w v hMem hValue⟩
    | none =>
      obtain ⟨k, hItem⟩ := List.mem_iff_getElem?.mp hMem
      have hPatch := mem_patches_of_writeAll hMore hItem hValue
      have hStop := (extends_of_writeAll (Extends.refl (s.writeAll items)) hItem).data.length_le
      have hSize : (s.writeAll (items.take k)).size + w.size ≤ (s.writeAll items).size := by
        have hWritten := size_write (s.writeAll (items.take k)) (.value e w)
        exact Nat.le_trans (Nat.le_of_eq hWritten.symm) hStop
      rw [size_writeAll] at hSize
      have hPos := w.size_pos
      obtain ⟨bytes, hFill⟩ := hFills _ hPatch (Nat.le_add_right _ _) (by dsimp only; omega)
      obtain ⟨v, hEval, hFits, -⟩ := fill_eq_ok_iff.mp hFill
      exact ⟨v, hEval, hFits⟩
  · intro hValues q hq hLow hHigh
    obtain ⟨more, hPatches, hBehind⟩ := hMore.patches
    rw [hPatches] at hq
    rcases List.mem_append.mp hq with hq | hq
    · rcases patch_of_writeAll hq with hOld | hMem
      · have hInside := hWell.inside q hOld
        have hPos := q.width.size_pos
        unfold Patch.stop at hInside
        unfold size at hLow
        omega
      · obtain ⟨v, hEval, hFits⟩ := hValues _ _ hMem
        exact ⟨_, fill_eq_ok_iff.mpr ⟨v, hEval, hFits, rfl⟩⟩
    · have hStart := hBehind q hq
      unfold size at hHigh
      omega

end Section

end CrossAsm
