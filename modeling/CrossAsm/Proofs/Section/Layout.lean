import CrossAsm.Proofs.Width
import CrossAsm.Section

/-!
# CrossAsm — the layout of a section while it is written

A section keeps its bytes and the patches over them in two lists, which grow and are cut back
independently. This module ties the two together:

* `WellFormed`: the patches follow one another without overlapping, inside the data and over zero bytes.
* `Extends`: one section continues another. Everything of the shorter one is still in place, and later
  patches lie behind it; this is what going back to a checkpoint relies on.
* `Journal`: a section with the checkpoints that are still live. `run?_inv` carries both facts through
  every sequence of edits.
-/

namespace CrossAsm

/-- The offset just behind the field of a patch. -/
def Patch.stop (p : Patch) : Nat := p.offset + p.width.size

namespace Section

/-- The patches of a section lie side by side in ascending order, inside the data and over zeros. -/
structure WellFormed (s : Section) : Prop where
  ordered : s.patches.Pairwise fun p q => p.stop ≤ q.offset
  inside  : ∀ p ∈ s.patches, p.stop ≤ s.data.length
  zero    : ∀ p ∈ s.patches, ∀ i, p.offset ≤ i → i < p.stop → s.data[i]? = some 0

/-- `b` continues `a`: the bytes and patches of `a` come first in `b`, and the patches of `b` behind them
do not reach back into the bytes of `a`. -/
structure Extends (a b : Section) : Prop where
  data    : a.data <+: b.data
  patches : ∃ more, b.patches = a.patches ++ more ∧ ∀ p ∈ more, a.data.length ≤ p.offset

-- --------
-- Continuing a section
-- --------

namespace Extends

variable {a b c : Section}

@[refl] theorem refl (s : Section) : Extends s s :=
  ⟨List.prefix_rfl, [], by simp, by simp⟩

theorem trans (hab : Extends a b) (hbc : Extends b c) : Extends a c := by
  obtain ⟨more, hMore, hBehind⟩ := hab.patches
  obtain ⟨more', hMore', hBehind'⟩ := hbc.patches
  refine ⟨hab.data.trans hbc.data, more ++ more', ?_, ?_⟩
  · rw [hMore', hMore, List.append_assoc]
  · intro p hp
    rcases List.mem_append.mp hp with hp | hp
    · exact hBehind p hp
    · exact Nat.le_trans hab.data.length_le (hBehind' p hp)

theorem emit (s : Section) (bytes : List UInt8) : Extends s (s.emit bytes) :=
  ⟨List.prefix_append _ _, [], by simp [Section.emit], by simp⟩

theorem emitExpr (s : Section) (e : Expr) (w : Width) : Extends s (s.emitExpr e w) := by
  unfold Section.emitExpr
  split
  · exact emit s _
  · refine ⟨List.prefix_append _ _, [⟨s.size, w, e⟩], rfl, ?_⟩
    intro p hp
    rw [List.mem_singleton.mp hp]
    exact Nat.le_refl _

/-- A section that was continued is cut back to exactly what it was. -/
theorem rollback (h : Extends a b) :
    b.rollback a.checkpoint = { b with data := a.data, patches := a.patches } := by
  obtain ⟨more, hMore, -⟩ := h.patches
  have hData : b.data.take a.data.length = a.data := (List.prefix_iff_eq_take.mp h.data).symm
  have hPatches : b.patches.take a.patches.length = a.patches := by
    rw [hMore, List.take_left]
  simp only [Section.rollback, checkpoint, hData, hPatches]

/-- Only bytes and patches count. -/
theorem congr_right {b' : Section} (h : Extends a b) (hData : b'.data = b.data)
    (hPatches : b'.patches = b.patches) : Extends a b' := by
  refine ⟨?_, ?_⟩
  · rw [hData]
    exact h.data
  · rw [hPatches]
    exact h.patches

end Extends

-- --------
-- Well-formed sections
-- --------

namespace WellFormed

theorem empty (origin : Option Value) : WellFormed { origin } :=
  ⟨List.Pairwise.nil, by simp, by simp⟩

variable {s : Section}

/-- Bytes in a well-formed section stay where they are when more are appended. -/
theorem zero_append (h : s.WellFormed) (bytes : List UInt8) {p : Patch} (hp : p ∈ s.patches) {i : Nat}
    (hLow : p.offset ≤ i) (hHigh : i < p.stop) : (s.data ++ bytes)[i]? = some 0 := by
  have hInside := h.inside p hp
  rw [List.getElem?_append_left (by omega)]
  exact h.zero p hp i hLow hHigh

theorem emit (h : s.WellFormed) (bytes : List UInt8) : (s.emit bytes).WellFormed := by
  refine ⟨h.ordered, ?_, ?_⟩
  · intro p hp
    have hInside := h.inside p hp
    simp only [Section.emit, List.length_append]
    omega
  · intro p hp i hLow hHigh
    exact h.zero_append bytes hp hLow hHigh

/-- A deferred value reserves zeros behind all other bytes. -/
theorem emitExpr (h : s.WellFormed) (e : Expr) (w : Width) : (s.emitExpr e w).WellFormed := by
  unfold Section.emitExpr
  split
  · exact h.emit _
  · refine ⟨?_, ?_, ?_⟩
    · rw [List.pairwise_append]
      refine ⟨h.ordered, List.pairwise_singleton _ _, ?_⟩
      intro p hp q hq
      rw [List.mem_singleton.mp hq]
      exact h.inside p hp
    · intro p hp
      simp only [List.length_append, List.length_replicate]
      rcases List.mem_append.mp hp with hp | hp
      · have hInside := h.inside p hp
        omega
      · rw [List.mem_singleton.mp hp]
        exact Nat.le_refl _
    · intro p hp i hLow hHigh
      rcases List.mem_append.mp hp with hp | hp
      · exact h.zero_append _ hp hLow hHigh
      · rw [List.mem_singleton.mp hp] at hLow hHigh
        simp only [Patch.stop, size] at hLow hHigh
        rw [List.getElem?_append_right hLow, List.getElem?_replicate, if_pos (by omega)]

theorem congr {s' : Section} (h : s.WellFormed) (hData : s'.data = s.data)
    (hPatches : s'.patches = s.patches) : s'.WellFormed := by
  refine ⟨?_, ?_, ?_⟩
  · rw [hPatches]
    exact h.ordered
  · rw [hPatches, hData]
    exact h.inside
  · rw [hPatches, hData]
    exact h.zero

/-- The offsets ascend strictly, since every field has a byte. -/
theorem ascending (h : s.WellFormed) : s.patches.Pairwise fun p q => p.offset < q.offset := by
  refine h.ordered.imp ?_
  intro p q hpq
  have hPos := p.width.size_pos
  simp only [Patch.stop] at hpq
  omega

end WellFormed

end Section

-- --------
-- Sequences of edits
-- --------

/-- What is done to a section while it is written. -/
inductive Edit where
  | emit (bytes : List UInt8)
  | emitExpr (e : Expr) (w : Width)
  /-- Takes a checkpoint. -/
  | checkpoint
  /-- Goes back to the live checkpoint with this number. -/
  | rollback (index : Nat)
deriving DecidableEq, Repr

/-- A section with the live checkpoints, oldest first. Of each one the section is kept as it was then;
going back uses only how much it held. -/
structure Journal where
  output : Section
  saved  : List Section := []
deriving DecidableEq, Repr

namespace Journal

/-- The journal after an edit. Going back gives up the checkpoints taken after the one gone back to,
and there is no result if that is not live. -/
def edit? (j : Journal) : Edit → Option Journal
  | .emit bytes => some { j with output := j.output.emit bytes }
  | .emitExpr e w => some { j with output := j.output.emitExpr e w }
  | .checkpoint => some { j with saved := j.saved ++ [j.output] }
  | .rollback index =>
    j.saved[index]?.map fun old =>
      ⟨j.output.rollback old.checkpoint, j.saved.take (index + 1)⟩

/-- The journal after a sequence of edits. -/
def run? : Journal → List Edit → Option Journal
  | j, [] => some j
  | j, edit :: edits => (j.edit? edit).bind fun j' => j'.run? edits

/-- The section is well-formed and continues every section it can go back to, which are well-formed
themselves and continue one another. -/
structure Inv (j : Journal) : Prop where
  output  : j.output.WellFormed
  saved   : ∀ old ∈ j.saved, old.WellFormed ∧ old.Extends j.output
  ordered : j.saved.Pairwise Section.Extends

/-- One edit keeps the invariant. -/
theorem edit?_inv {j j' : Journal} {edit : Edit} (hInv : j.Inv) (h : j.edit? edit = some j') :
    j'.Inv := by
  cases edit with
  | emit bytes =>
    obtain rfl := Option.some.inj h
    refine ⟨hInv.output.emit bytes, ?_, hInv.ordered⟩
    intro old hOld
    obtain ⟨hWell, hExt⟩ := hInv.saved old hOld
    exact ⟨hWell, hExt.trans (.emit _ _)⟩
  | emitExpr e w =>
    obtain rfl := Option.some.inj h
    refine ⟨hInv.output.emitExpr e w, ?_, hInv.ordered⟩
    intro old hOld
    obtain ⟨hWell, hExt⟩ := hInv.saved old hOld
    exact ⟨hWell, hExt.trans (.emitExpr _ _ _)⟩
  | checkpoint =>
    obtain rfl := Option.some.inj h
    refine ⟨hInv.output, ?_, ?_⟩
    · intro old hOld
      rcases List.mem_append.mp hOld with hOld | hOld
      · exact hInv.saved old hOld
      · rw [List.mem_singleton.mp hOld]
        exact ⟨hInv.output, .refl _⟩
    · rw [List.pairwise_append]
      refine ⟨hInv.ordered, List.pairwise_singleton _ _, ?_⟩
      intro old hOld new hNew
      rw [List.mem_singleton.mp hNew]
      exact (hInv.saved old hOld).2
  | rollback index =>
    obtain ⟨target, hTarget, rfl⟩ := Option.map_eq_some_iff.mp h
    obtain ⟨hIndex, hAt⟩ := List.getElem?_eq_some_iff.mp hTarget
    obtain ⟨hWell, hExt⟩ := hInv.saved target (List.mem_of_getElem? hTarget)
    have hOutput := hExt.rollback
    refine ⟨?_, ?_, hInv.ordered.sublist (List.take_sublist _ _)⟩
    · rw [hOutput]
      exact hWell.congr rfl rfl
    · intro old hOld
      refine ⟨(hInv.saved old (List.mem_of_mem_take hOld)).1, ?_⟩
      rw [hOutput]
      -- What is still live is the target itself or was saved before it.
      rw [List.take_succ_eq_append_getElem hIndex] at hOld
      have hBefore : old.Extends target := by
        rcases List.mem_append.mp hOld with hOld | hOld
        · have hPairs := hInv.ordered.sublist (List.take_sublist (index + 1) _)
          rw [List.take_succ_eq_append_getElem hIndex, List.pairwise_append] at hPairs
          rw [← hAt]
          exact hPairs.2.2 old hOld _ (List.mem_singleton_self _)
        · rw [List.mem_singleton.mp hOld, hAt]
      exact hBefore.congr_right rfl rfl

/-- Every sequence of edits keeps the invariant. -/
theorem run?_inv {j j' : Journal} {edits : List Edit} (hInv : j.Inv) (h : j.run? edits = some j') :
    j'.Inv := by
  induction edits generalizing j with
  | nil =>
    obtain rfl := Option.some.inj h
    exact hInv
  | cons edit edits ih =>
    obtain ⟨next, hNext, hRest⟩ := Option.bind_eq_some_iff.mp h
    exact ih (edit?_inv hInv hNext) hRest

theorem inv_new (origin : Option Value) : Inv ⟨{ origin }, []⟩ :=
  ⟨.empty origin, by simp, List.Pairwise.nil⟩

end Journal

end CrossAsm
