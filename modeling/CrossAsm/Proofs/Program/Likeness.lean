import CrossAsm.Program
import CrossAsm.Proofs.Expr.Likeness

/-!
# CrossAsm — programs that are alike

Programs that are alike have the same bytes, and patches with corresponding expressions over them. They are linked
to the same image, or fail with corresponding errors. If no address of relocatable code occurs in them, they need
not be linked at the same base.

* `Section.Like`, `Program.Like` — outputs that correspond. Where no addresses of relocatable code may occur, the
  outputs have an origin.
* `Program.Like.linkSections`, `Program.Like.link` — what is linked corresponds.
-/

namespace CrossAsm

variable {L : Likeness}

-- --------
-- Sections
-- --------

/-- The same place in the output for corresponding expressions. -/
structure Patch.Like (L : Likeness) (p p' : Patch) : Prop where
  offset : p.offset = p'.offset
  width  : p.width = p'.width
  expr   : p.expr.Like L p'.expr

namespace Section

/-- The same bytes with corresponding patches. -/
structure Like (L : Likeness) (s s' : Section) : Prop where
  origin  : s.origin = s'.origin
  /-- Code without an origin has addresses that are not known yet. -/
  fixed   : s.origin = none → L.relocatable
  data    : s.data = s'.data
  patches : List.Forall₂ (Patch.Like L) s.patches s'.patches

namespace Like

variable {s s' : Section}

theorem size_eq (h : Like L s s') : s.size = s'.size := congrArg List.length h.data

theorem isEmpty_eq (h : Like L s s') : s.isEmpty = s'.isEmpty := congrArg List.isEmpty h.data

theorem setOrigin (h : Like L s s') (origin : Value) : Like L (s.setOrigin origin) (s'.setOrigin origin) :=
  ⟨rfl, by simp [Section.setOrigin], h.data, h.patches⟩

theorem emit (h : Like L s s') (bytes : List UInt8) : Like L (s.emit bytes) (s'.emit bytes) :=
  ⟨h.origin, h.fixed, congrArg (· ++ bytes) h.data, h.patches⟩

theorem emitExpr (h : Like L s s') {e e' : Expr} (he : e.Like L e') (w : Width) :
    Like L (s.emitExpr e w) (s'.emitExpr e' w) := by
  unfold Section.emitExpr
  rw [he.value?_eq]
  split
  · exact h.emit _
  · exact ⟨h.origin, h.fixed, congrArg (· ++ _) h.data, List.rel_append h.patches (.cons ⟨h.size_eq, rfl, he⟩ .nil)⟩

theorem positionExpr (h : Like L s s') {p p' : Span} (hp : L.spans p p') :
    (s.positionExpr p).Like L (s'.positionExpr p') := by
  unfold Section.positionExpr
  rw [h.size_eq, h.origin]
  cases hOrigin : s'.origin with
  | some origin => exact .const _ hp
  | none => exact .counter (h.fixed (h.origin.trans hOrigin)) _ hp

theorem checkpoint_eq (h : Like L s s') : s.checkpoint = s'.checkpoint := by
  unfold checkpoint
  rw [h.data, h.patches.length_eq]

theorem rollback (h : Like L s s') (c : Checkpoint) : Like L (s.rollback c) (s'.rollback c) :=
  ⟨h.origin, h.fixed, congrArg (List.take c.bytes) h.data, List.forall₂_take c.patches h.patches⟩

end Like

end Section

-- --------
-- Regions and programs
-- --------

/-- Regions with corresponding outputs. -/
structure Region.Like (L : Likeness) (r r' : Region) : Prop where
  output : r.output.Like L r'.output
  span   : L.spans r.span r'.span

/-- The same bytes at the same address. -/
structure Block.Like (L : Likeness) (b b' : Block) : Prop where
  address : b.address = b'.address
  bytes   : b.bytes = b'.bytes
  span    : L.spans b.span b'.span

/-- Programs with corresponding outputs and symbols, and with the same listing. -/
structure Program.Like (L : Likeness) (p p' : Program) : Prop where
  regions : List.Forall₂ (Region.Like L) p.regions p'.regions
  symbols : p.symbols.Like L p'.symbols
  listing : p.listing = p'.listing

/-- Failures with corresponding diagnostics. -/
inductive Failure.Like (L : Likeness) : Failure → Failure → Prop
  | single {d d' : Diagnostic} (h : d.Like L d') : Like L (.single d) (.single d')
  | collected {ds ds' : List Diagnostic} (h : L.Reports ds ds') : Like L (.collected ds) (.collected ds')

-- --------
-- Filling in patches
-- --------

section Linking

variable {t t' : SymbolTable} (ht : t.Like L t') {base base' : Value} (hBase : L.relocatable → base = base')

include ht hBase

namespace Section

theorem fill_like {p p' : Patch} (h : p.Like L p') : L.Results Eq (fill t base p) (fill t' base' p') := by
  unfold fill
  rcases (ht.evaluate hBase h.expr).cases with ⟨v, v', hOk, hOk', rfl⟩ | ⟨d, d', hBad, hBad', hd⟩
  · rw [hOk, hOk', h.width]
    dsimp only
    split
    · exact .ok rfl
    · exact .error (.of_place h.expr.span rfl rfl rfl fun _ => rfl)
  · rw [hBad, hBad']
    exact .error hd

theorem fillAll_like {ps ps' : List Patch} (h : List.Forall₂ (Patch.Like L) ps ps') (data : List UInt8) :
    (fillAll t base data ps).1 = (fillAll t' base' data ps').1 ∧
      L.Reports (fillAll t base data ps).2 (fillAll t' base' data ps').2 := by
  induction h generalizing data with
  | nil => exact ⟨rfl, .nil⟩
  | cons hp _ ih =>
    unfold fillAll
    rcases (fill_like ht hBase hp).cases with ⟨bytes, bytes', hOk, hOk', rfl⟩ | ⟨d, d', hBad, hBad', hd⟩
    · rw [hOk, hOk', hp.offset]
      exact ih _
    · rw [hBad, hBad']
      exact ⟨(ih data).1, .cons hd (ih data).2⟩

theorem link_like {s s' : Section} (h : s.Like L s') : Alike L.Reports Eq (s.link t base) (s'.link t' base') := by
  have hFill := fillAll_like ht hBase h.patches s.data
  unfold link
  rw [← h.data]
  generalize fillAll t base s.data s.patches = filled at hFill
  generalize fillAll t' base' s.data s'.patches = filled' at hFill
  obtain ⟨data, errors⟩ := filled
  obtain ⟨data', errors'⟩ := filled'
  obtain ⟨hData, hErrors⟩ := hFill
  cases hErrors with
  | nil => exact .ok hData
  | cons hd hMore => exact .error (.cons hd hMore)

end Section

theorem Region.link_like {r r' : Region} (h : r.Like L r') :
    Alike L.Reports (Block.Like L) (r.link t base) (r'.link t' base') := by
  -- The base counts only where there is no origin.
  have hLoad : r.load base = r'.load base' := by
    unfold load
    rw [h.output.origin]
    cases hOrigin : r'.output.origin with
    | some origin => rfl
    | none => exact hBase (h.output.fixed (h.output.origin.trans hOrigin))
  unfold link
  rcases (Section.link_like ht hBase h.output).cases with
    ⟨bytes, bytes', hOk, hOk', hBytes⟩ | ⟨ds, ds', hBad, hBad', hds⟩
  · rw [hOk, hOk']
    exact .ok ⟨hLoad, hBytes, h.span⟩
  · rw [hBad, hBad']
    exact .error hds

theorem Program.linkRegions_like {rs rs' : List Region} (h : List.Forall₂ (Region.Like L) rs rs') :
    List.Forall₂ (Block.Like L) (linkRegions t base rs).1 (linkRegions t' base' rs').1 ∧
      L.Reports (linkRegions t base rs).2 (linkRegions t' base' rs').2 := by
  induction h with
  | nil => exact ⟨.nil, .nil⟩
  | cons hr _ ih =>
    unfold linkRegions
    dsimp only
    rcases (Region.link_like ht hBase hr).cases with ⟨b, b', hOk, hOk', hb⟩ | ⟨ds, ds', hBad, hBad', hds⟩
    · rw [hOk, hOk']
      exact ⟨.cons hb ih.1, ih.2⟩
    · rw [hBad, hBad']
      exact ⟨ih.1, List.rel_append hds ih.2⟩

end Linking

-- --------
-- Images
-- --------

namespace Block

/-- Where only the same places correspond, only the same blocks do. -/
theorem eq_of_like (hSpans : ∀ s t, L.spans s t → s = t) {bs bs' : List Block}
    (h : List.Forall₂ (Block.Like L) bs bs') : bs = bs' := by
  have hSame := h.imp (S := Eq) fun b b' hb => by
    obtain ⟨address, bytes, span⟩ := b
    obtain ⟨rfl, rfl, hSpan⟩ := hb
    obtain rfl : span = b'.span := hSpans _ _ hSpan
    rfl
  rwa [List.forall₂_eq_eq_eq] at hSame

/-- Blocks in the order of their addresses correspond as before. Sorting the pairs sorts both lists. -/
theorem mergeSort_like {bs bs' : List Block} (h : List.Forall₂ (Block.Like L) bs bs') :
    List.Forall₂ (Block.Like L) (bs.mergeSort fun a b => decide (a.address ≤ b.address))
      (bs'.mergeSort fun a b => decide (a.address ≤ b.address)) := by
  have hPairs : ∀ pair ∈ bs.zip bs', pair.1.Like L pair.2 := by
    intro pair hPair
    exact List.forall₂_zip h hPair
  have hFst : (bs.zip bs').map Prod.fst = bs := List.map_fst_zip (Nat.le_of_eq h.length_eq)
  have hSnd : (bs.zip bs').map Prod.snd = bs' := List.map_snd_zip (Nat.le_of_eq h.length_eq.symm)
  generalize bs.zip bs' = pairs at hPairs hFst hSnd
  let le (x y : Block × Block) : Bool := decide (x.1.address ≤ y.1.address)
  have hSorted := List.map_mergeSort (r := le) (s := fun a b => decide (a.address ≤ b.address)) (f := Prod.fst)
    (l := pairs) fun x _ y _ => rfl
  have hSorted' := List.map_mergeSort (r := le) (s := fun a b => decide (a.address ≤ b.address)) (f := Prod.snd)
    (l := pairs) fun x hx y hy => by
      show decide (x.1.address ≤ y.1.address) = decide (x.2.address ≤ y.2.address)
      rw [(hPairs x hx).address, (hPairs y hy).address]
  rw [← hFst, ← hSnd, ← hSorted, ← hSorted', List.forall₂_map_left_iff, List.forall₂_map_right_iff, List.forall₂_same]
  intro pair hPair
  exact hPairs pair (List.mem_mergeSort.mp hPair)

theorem layOut_like (start : Value) {bs bs' : List Block} (h : List.Forall₂ (Block.Like L) bs bs')
    (image : List UInt8) : L.Results Eq (layOut start image bs) (layOut start image bs') := by
  induction h generalizing image with
  | nil => exact .ok rfl
  | cons hb _ ih =>
    unfold layOut
    dsimp only
    rw [hb.address, hb.bytes]
    split
    · exact .error (.of_place hb.span rfl rfl rfl fun _ => rfl)
    · exact ih _

theorem image_like {bs bs' : List Block} (h : List.Forall₂ (Block.Like L) bs bs') :
    L.Results Eq (image bs) (image bs') := by
  have hFilter : List.Forall₂ (Block.Like L) (bs.filter (!·.bytes.isEmpty)) (bs'.filter (!·.bytes.isEmpty)) := by
    refine List.rel_filter (fun b b' hb => ?_) h
    simp only [hb.bytes]
  have hSorted := mergeSort_like hFilter
  unfold image
  generalize (bs.filter (!·.bytes.isEmpty)).mergeSort (fun a b => decide (a.address ≤ b.address)) = sorted at hSorted
  generalize (bs'.filter (!·.bytes.isEmpty)).mergeSort (fun a b => decide (a.address ≤ b.address)) = sorted' at hSorted
  cases hSorted with
  | nil => exact .ok rfl
  | cons hb hOthers =>
    dsimp only
    rw [hb.address]
    exact layOut_like _ (.cons hb hOthers) []

end Block

namespace Program.Like

variable {p p' : Program} {base base' : Value}

/-- **The blocks of a program** correspond. -/
theorem linkSections (h : p.Like L p') (hBase : L.relocatable → base = base') :
    Alike (Failure.Like L) (List.Forall₂ (Block.Like L)) (p.linkSections base) (p'.linkSections base') := by
  have hRegions := linkRegions_like h.symbols hBase h.regions
  unfold Program.linkSections
  generalize linkRegions p.symbols base p.regions = linked at hRegions
  generalize linkRegions p'.symbols base' p'.regions = linked' at hRegions
  obtain ⟨blocks, errors⟩ := linked
  obtain ⟨blocks', errors'⟩ := linked'
  obtain ⟨hBlocks, hErrors⟩ := hRegions
  cases hErrors with
  | nil => exact .ok hBlocks
  | cons hd hMore => exact .error (.collected (.cons hd hMore))

/-- **The image of a program** is the same. -/
theorem link (h : p.Like L p') (hBase : L.relocatable → base = base') :
    Alike (Failure.Like L) Eq (p.link base) (p'.link base') := by
  unfold Program.link
  rcases (h.linkSections hBase).cases with ⟨blocks, blocks', hOk, hOk', hBlocks⟩ | ⟨f, f', hBad, hBad', hf⟩
  · rw [hOk, hOk']
    dsimp only
    rcases (Block.image_like hBlocks).cases with ⟨bytes, bytes', hImage, hImage', hBytes⟩ | ⟨d, d', hFail, hFail', hd⟩
    · rw [hImage, hImage']
      exact .ok hBytes
    · rw [hFail, hFail']
      exact .error (.single hd)
  · rw [hBad, hBad']
    exact .error hf

end Program.Like

end CrossAsm
