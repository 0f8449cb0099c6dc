import CrossAsm.Proofs.Assembly.Instruction
import CrossAsm.Proofs.Assembly.Listing
import CrossAsm.Proofs.Assembly.Setting

/-!
# CrossAsm — programs of instructions

A program in which every statement is an instruction, with or without a label.

* `Family.statements` — the states in which the run is at a statement.
* `Assembly.settled_steps` — instructions open no region and keep the machine.
* `Assembly.forall₂_listing` — a run lists its statements one by one.
* `Family.Sequence` — so the program has one region, which its statements tile.
-/

namespace CrossAsm

/-- The fields of a tiling are all its bytes. -/
theorem ListingLine.Tiles.flatMap_field {start stop : Nat} {es : List ListingLine} (h : Tiles start stop es)
    (data : List UInt8) :
    (es.flatMap fun e => Section.field data e.offset e.length) = Section.field data start (stop - start) := by
  induction es generalizing start with
  | nil =>
    obtain rfl : start = stop := h
    rw [Nat.sub_self]
    rfl
  | cons e es ih =>
    obtain ⟨rfl, hRest⟩ := h
    have hLe := hRest.le
    rw [List.flatMap_cons, ih hRest, ← Section.field_add]
    congr 1
    omega

variable {Mnemonic Mode Feature : Type} [DecidableEq Mode] [Flag Mode] [Flag Feature]

namespace Assembly

variable {job : Job Mnemonic Mode Feature} {s : Assembly Feature}

/-- An instruction sets nothing. -/
theorem settled_of_pending? {w : Pending Mnemonic Feature} (hw : pending? job.family s = some w) :
    Settled s (statement job s) := by
  obtain ⟨name, hName, -⟩ := cursor_of_pending? hw
  have hNone : setting? job s = none := by
    simp [setting?, Cursor.directive?, Cursor.isAt, hName, Lexeme.kind]
  exact (settled_of_not_setting hNone).trans (settled_statement job s)

/-- Nor does a run through instructions. -/
theorem settled_steps {n : Nat} (h : ∀ x ∈ visits job n s, x.cursor.isAt .newline = false →
      ∃ w, pending? job.family x = some w) :
    Settled s (steps job n s) ∧ ∀ x ∈ visits job n s, Settled s x := by
  induction n generalizing s with
  | zero => exact ⟨⟨rfl, rfl⟩, by simp [visits]⟩
  | succ n ih =>
    unfold visits at h ⊢
    unfold steps
    split at h
    · next hEnd =>
      rw [if_pos hEnd, if_pos hEnd]
      exact ⟨⟨rfl, rfl⟩, by simp⟩
    · next hEnd =>
      rw [if_neg hEnd, if_neg hEnd]
      obtain ⟨hLast, hVisits⟩ := ih fun x hx => h x (List.mem_cons_of_mem _ hx)
      have hStep : Settled s (step job s) := by
        cases hAt : s.cursor.isAt .newline with
        | true =>
          rw [step_of_newline hAt]
          exact ⟨rfl, rfl⟩
        | false =>
          obtain ⟨w, hw⟩ := h s List.mem_cons_self hAt
          rw [step_of_statement hAt]
          exact settled_of_pending? hw
      exact ⟨hStep.trans hLast,
        List.forall_mem_cons.mpr ⟨⟨rfl, rfl⟩, fun x hx => hStep.trans (hVisits x hx)⟩⟩

/-- In a run without errors, the listing goes on with an entry for each statement. -/
theorem forall₂_listing {n : Nat} (hErrors : (steps job n s).errors = []) :
    List.Forall₂ (fun x e => (steps job n s).listing[x.listing.length]? = some e)
      ((visits job n s).filter fun x => !x.cursor.isAt .newline)
      ((steps job n s).listing.drop s.listing.length) := by
  induction n generalizing s with
  | zero => simp [visits, steps]
  | succ n ih =>
    unfold steps at hErrors ⊢
    unfold visits
    split at hErrors
    · next hEnd => simp [hEnd]
    · next hEnd =>
      simp only [if_neg hEnd]
      cases hAt : s.cursor.isAt .newline with
      | true =>
        rw [List.filter_cons_of_neg (by simp [hAt])]
        rw [step_of_newline hAt] at hErrors ⊢
        exact ih hErrors
      | false =>
        rw [List.filter_cons_of_pos (by simp [hAt])]
        rw [step_of_statement hAt] at hErrors ⊢
        obtain ⟨s', hRun⟩ := exists_ok_of_errors hErrors
        have hEntry := listing_steps hRun n
        have hRest := ih hErrors
        rw [listing_statement hRun, List.length_append] at hRest
        obtain ⟨hLt, hGet⟩ := List.getElem?_eq_some_iff.mp hEntry
        rw [List.drop_eq_getElem_cons hLt]
        exact .cons (hEntry.trans (congrArg some hGet.symm)) hRest

end Assembly

namespace Family

variable {F : Family Mnemonic Mode Feature} {machine : Machine Feature} {policy : Policy} {source : String}
  {p : Program}

/-- The states in which the run over a source text is at a statement. -/
def statements (F : Family Mnemonic Mode Feature) (machine : Machine Feature) (policy : Policy) (source : String) :
    List (Assembly Feature) :=
  (F.states machine policy source).filter fun s => !s.cursor.isAt .newline

/-- A program with one region, tiled by its statements, which all run on one machine. -/
structure Sequence (F : Family Mnemonic Mode Feature) (machine : Machine Feature) (policy : Policy)
    (source : String) (p : Program) (r : Region) : Prop where
  regions : p.regions = [r]
  tiles   : ListingLine.Tiles 0 r.output.size p.listing
  entries : List.Forall₂ (fun s e => p.listing[s.listing.length]? = some e)
              (F.statements machine policy source) p.listing
  machine : ∀ s ∈ F.statements machine policy source, s.machine = machine

/-- **A program of instructions** is such a sequence. -/
theorem exists_sequence (hAssembled : (F.assemble machine policy source).result = .ok p)
    (h : ∀ s ∈ F.statements machine policy source, ∃ w, Assembly.pending? F s = some w) :
    ∃ r, F.Sequence machine policy source p r := by
  obtain ⟨tokens, final, hScan, hRun, hErrors, rfl⟩ := exists_run hAssembled
  have hStates := states_of_scan F machine policy source hScan
  rw [← hRun] at hErrors
  have hEntries := Assembly.forall₂_listing hErrors
  have hListed := Assembly.listed_steps (s := { machine, cursor := ⟨tokens, source.utf8ByteSize⟩ }) ?_ hErrors
  swap
  · refine ⟨.nil, by simp, fun i r hr => ?_⟩
    rw [List.mem_singleton.mp (List.mem_of_getElem? hr)]
    rfl
  rw [hRun, ← hStates] at hEntries
  rw [hRun] at hListed
  obtain ⟨hLast, hVisits⟩ := Assembly.settled_steps (fun x hx hAt =>
    h x (List.mem_filter.mpr ⟨hStates ▸ hx, by rw [hAt]; rfl⟩))
  rw [hRun] at hLast
  have hOne : final.regions.length = 1 := by
    have hLength := congrArg List.length hLast.layout
    simp only [Assembly.layout, List.length_map] at hLength
    exact hLength
  obtain ⟨r, hRegion⟩ := List.length_eq_one_iff.mp hOne
  have hFilter : final.listing.filter (fun e => e.region = 0) = final.listing := by
    refine List.filter_eq_self.mpr fun e he => ?_
    have hInside := hListed.inside e he
    rw [Assembly.length_regions] at hOne
    exact decide_eq_true (by omega)
  have hTiles := hListed.tiles 0 r (by rw [hRegion]; rfl)
  rw [hFilter] at hTiles
  refine ⟨r, hRegion, hTiles, hEntries, fun s hs => ?_⟩
  exact (hVisits s (hStates ▸ (List.mem_filter.mp hs).1)).machine

end Family

end CrossAsm
