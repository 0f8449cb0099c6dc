import CrossAsm.Proofs.Assembly.Line
import CrossAsm.Proofs.Assembly.Region
import CrossAsm.Proofs.Token.Position
import Mathlib.Data.List.Forall2

/-!
# CrossAsm — the listing

The listing of a program has an entry for each of its statements: the line, the region and the bytes that the
statement wrote there.

* `Token.statements` — the statements of a source, which are its lines with tokens.
* `Listed` — entries that cover the regions of a run, and `listed_steps`, which keeps them so.
* `lines_steps` — the entries are those of the statements, in order.
* `Family.listing_tiles_output` — all of this for a program.
-/

namespace CrossAsm

-- --------
-- Line numbers
-- --------

section Newlines

variable {offset : Nat} {front cs : List Char}

theorem newlineOffsets_append (offset : Nat) (front cs : List Char) :
    newlineOffsets offset (front ++ cs) =
      newlineOffsets offset front ++ newlineOffsets (offset + Text.utf8Length front) cs := by
  induction front generalizing offset with
  | nil => rfl
  | cons c front ih =>
    have hSum : offset + c.utf8Size + Text.utf8Length front = offset + Text.utf8Length (c :: front) := by
      simp only [Text.utf8Length]
      omega
    simp only [List.cons_append, newlineOffsets, ih, hSum]
    split <;> rfl

theorem length_newlineOffsets (offset : Nat) (cs : List Char) :
    (newlineOffsets offset cs).length = cs.count '\n' := by
  induction cs generalizing offset with
  | nil => rfl
  | cons c cs ih =>
    unfold newlineOffsets
    dsimp only
    split
    · next hNewline => rw [hNewline, List.length_cons, ih, List.count_cons_self]
    · next hOther => rw [ih, List.count_cons_of_ne hOther]

theorem le_of_mem_newlineOffsets {n : Nat} (h : n ∈ newlineOffsets offset cs) : offset ≤ n := by
  induction cs generalizing offset with
  | nil => cases h
  | cons c cs ih =>
    unfold newlineOffsets at h
    dsimp only at h
    split at h
    · rcases List.mem_cons.mp h with rfl | h
      · exact Nat.le_refl _
      · exact (Nat.le_add_right _ _).trans (ih h)
    · exact (Nat.le_add_right _ _).trans (ih h)

theorem lt_of_mem_newlineOffsets {n : Nat} (h : n ∈ newlineOffsets offset cs) :
    n < offset + Text.utf8Length cs := by
  induction cs generalizing offset with
  | nil => cases h
  | cons c cs ih =>
    have hPos := c.utf8Size_pos
    unfold newlineOffsets at h
    simp only [Text.utf8Length]
    dsimp only at h
    split at h
    · rcases List.mem_cons.mp h with rfl | h
      · omega
      · have hLt := ih h
        omega
    · have hLt := ih h
      omega

/-- The newlines before a place are those of the text in front of it. -/
theorem countP_newlineOffsets (front cs : List Char) :
    (newlineOffsets 0 (front ++ cs)).countP (fun n => decide (n < Text.utf8Length front)) =
      front.count '\n' := by
  have hBefore : (newlineOffsets 0 front).countP (fun n => decide (n < Text.utf8Length front)) =
      front.count '\n' := by
    rw [← length_newlineOffsets 0 front, List.countP_eq_length]
    intro n hn
    have hLt := lt_of_mem_newlineOffsets hn
    rw [Nat.zero_add] at hLt
    exact decide_eq_true hLt
  have hBehind : (newlineOffsets (0 + Text.utf8Length front) cs).countP
      (fun n => decide (n < Text.utf8Length front)) = 0 := by
    rw [List.countP_eq_zero]
    intro n hn
    have hLe := le_of_mem_newlineOffsets hn
    rw [decide_eq_true_eq]
    omega
  rw [newlineOffsets_append, List.countP_append, hBefore, hBehind, Nat.add_zero]

theorem mem_newlineOffsets (front cs : List Char) :
    Text.utf8Length front ∈ newlineOffsets 0 (front ++ ('\n' :: cs)) := by
  rw [newlineOffsets_append, Nat.zero_add]
  exact List.mem_append_right _ List.mem_cons_self

end Newlines

namespace Job

variable {Mnemonic Mode Feature : Type}

/-- A newline between two places is a line between them. -/
theorem lineAt_lt (job : Job Mnemonic Mode Feature) {a n b : Nat} (hn : n ∈ job.newlines) (ha : a ≤ n)
    (hb : n < b) : job.lineAt a < job.lineAt b := by
  unfold lineAt
  refine Nat.add_lt_add_left ?_ 1
  obtain ⟨front, rest, hSplit⟩ := List.append_of_mem hn
  have hMono (l : List Nat) : l.countP (fun x => decide (x < a)) ≤ l.countP fun x => decide (x < b) := by
    refine List.countP_mono_left fun x _ hx => ?_
    rw [decide_eq_true_eq] at hx ⊢
    omega
  have hHere : decide (n < a) = false := decide_eq_false (by omega)
  have hThere : decide (n < b) = true := decide_eq_true hb
  rw [hSplit, List.countP_append, List.countP_append, List.countP_cons, List.countP_cons, hHere, hThere]
  have hFront := hMono front
  have hRest := hMono rest
  simp only [Bool.false_eq_true, if_false, if_true]
  omega

end Job

-- --------
-- The statements of a source
-- --------

namespace Token

/-- The statements of a list of tokens: what stands between newlines, if anything does. -/
def statements (tokens : List Token) : List (List Token) :=
  (tokens.splitOnP (·.lexeme == .newline)).filter (!·.isEmpty)

variable {t : Token} {ts line rest : List Token}

theorem statements_newline (h : t.lexeme = .newline) : statements (t :: ts) = statements ts := by
  unfold statements
  rw [List.splitOnP_cons_eq_if_modifyHead, if_pos (beq_iff_eq.mpr h)]
  rfl

/-- A line with tokens is a statement. -/
theorem statements_line (hLine : line ≠ []) (hOpen : ∀ t ∈ line, t.lexeme ≠ .newline)
    (hRest : ∀ t ∈ rest.head?, t.lexeme = .newline) :
    statements (line ++ rest) = line :: statements rest := by
  have hOpen' : ∀ t ∈ line, (t.lexeme == .newline) = false := fun t ht => beq_eq_false_iff_ne.mpr (hOpen t ht)
  have hKeep : (!line.isEmpty) = true := by
    rw [Bool.not_eq_true', List.isEmpty_eq_false_iff]
    exact hLine
  cases rest with
  | nil =>
    unfold statements
    rw [List.append_nil, List.splitOnP_eq_singleton hOpen', List.filter_cons, if_pos hKeep]
    rfl
  | cons t rest =>
    have hNewline := hRest t rfl
    rw [statements_newline hNewline]
    unfold statements
    rw [List.splitOnP_append_cons_of_forall_mem hOpen' t (beq_iff_eq.mpr hNewline), List.filter_cons,
      if_pos hKeep]

/-- Where a statement ends in a source, there is a newline or nothing. -/
theorem lexeme_of_end {c : Cursor} (hScanned : c.Scanned) (hEnd : c.atStatementEnd = true) :
    ∀ n ∈ c.rest.head?, n.lexeme = .newline := by
  intro n hn
  have hNe := hScanned n (List.mem_of_mem_head? hn)
  unfold Cursor.atStatementEnd Cursor.peek at hEnd
  cases hRest : c.rest with
  | nil =>
    rw [hRest] at hn
    cases hn
  | cons t rest =>
    rw [hRest] at hEnd hn
    obtain rfl := Option.some.inj hn
    cases hLexeme : t.lexeme <;> simp_all [Lexeme.endsStatement]

/-- At a statement, the statements are this one and those behind it. -/
theorem statements_of_open {c : Cursor} (hScanned : c.Scanned) (hOpen : c.atStatementEnd = false) :
    ∃ ts, statements c.rest = (c.peek :: ts) :: statements c.skipStatement.rest ∧
      c.rest = c.peek :: ts ++ c.skipStatement.rest := by
  obtain ⟨t, rest, hRest, hFirst⟩ := Cursor.rest_of_not_end hOpen
  have hPeek : c.peek = t := by
    unfold Cursor.peek
    rw [hRest]
  have hNewline : ∀ u ∈ c.rest, u.lexeme.endsStatement = true ↔ u.lexeme = .newline := by
    intro u hu
    have hNe := hScanned u hu
    cases hLexeme : u.lexeme <;> simp_all [Lexeme.endsStatement]
  have hSplit : c.rest = c.peek :: rest.takeWhile (fun u => !u.lexeme.endsStatement) ++
      c.skipStatement.rest := by
    unfold Cursor.skipStatement
    rw [hRest, hPeek, List.dropWhile_cons_of_pos (by simp [hFirst]), List.cons_append,
      List.takeWhile_append_dropWhile]
  refine ⟨_, ?_, hSplit⟩
  have hLine : ∀ u ∈ c.peek :: rest.takeWhile (fun u => !u.lexeme.endsStatement),
      u.lexeme ≠ .newline := by
    intro u hu hEq
    have hMem : u ∈ c.rest := by
      rw [hSplit]
      exact List.mem_append_left _ hu
    have hEnds := (hNewline u hMem).mpr hEq
    rcases List.mem_cons.mp hu with rfl | hu
    · rw [hPeek, hFirst] at hEnds
      cases hEnds
    · have hNot := List.all_eq_true.mp List.all_takeWhile u hu
      rw [hEnds] at hNot
      cases hNot
  have hEnd := lexeme_of_end (hScanned.of_suffix c.skipStatement_suffix) c.atStatementEnd_skipStatement
  have hLast := statements_line (List.cons_ne_nil _ _) hLine hEnd
  rw [← hSplit] at hLast
  exact hLast

theorem mem_of_mem_statements {b : List Token} (hb : b ∈ statements ts) (ht : t ∈ b) : t ∈ ts := by
  have hSplit : ∀ (ts : List Token), ∀ b ∈ ts.splitOnP (·.lexeme == .newline), t ∈ b → t ∈ ts := by
    intro ts
    induction ts with
    | nil =>
      intro b hb ht
      rw [List.mem_singleton.mp hb] at ht
      exact ht
    | cons u ts ih =>
      intro b hb ht
      rw [List.splitOnP_cons_eq_if_modifyHead] at hb
      split at hb
      · rcases List.mem_cons.mp hb with rfl | hb
        · cases ht
        · exact List.mem_cons_of_mem u (ih b hb ht)
      · cases hFirst : ts.splitOnP (·.lexeme == .newline) with
        | nil => exact absurd hFirst (List.splitOnP_ne_nil _ ts)
        | cons first others =>
          rw [hFirst, List.modifyHead_cons] at hb
          rw [hFirst] at ih
          rcases List.mem_cons.mp hb with rfl | hb
          · rcases List.mem_cons.mp ht with rfl | ht
            · exact List.mem_cons_self
            · exact List.mem_cons_of_mem u (ih first List.mem_cons_self ht)
          · exact List.mem_cons_of_mem u (ih b (List.mem_cons_of_mem first hb) ht)
  exact hSplit ts b (List.mem_filter.mp hb).1 ht

/-- A newline stands between any two statements. -/
theorem pairwise_statements {c : Cursor} (hScanned : c.Scanned)
    (hOrder : c.rest.Pairwise fun a b => a.span.start < b.span.start) :
    (statements c.rest).Pairwise fun a b => ∀ t ∈ a.head?, ∀ u ∈ b.head?,
      ∃ n ∈ c.rest, n.lexeme = .newline ∧ t.span.start ≤ n.span.start ∧ n.span.start < u.span.start := by
  induction hLength : c.rest.length using Nat.strongRecOn generalizing c with
  | ind length ih =>
    -- What is shown of a part of the tokens holds of all of them.
    have hPart (c' : Cursor) (hSuffix : c'.rest <:+ c.rest) (hLess : c'.rest.length < c.rest.length) :
        (statements c'.rest).Pairwise fun a b => ∀ t ∈ a.head?, ∀ u ∈ b.head?,
          ∃ n ∈ c.rest, n.lexeme = .newline ∧ t.span.start ≤ n.span.start ∧ n.span.start < u.span.start := by
      refine (ih _ (hLength ▸ hLess) (hScanned.of_suffix hSuffix)
        (hOrder.sublist hSuffix.sublist) rfl).imp fun hNewline t ht u hu => ?_
      obtain ⟨n, hn, hRest⟩ := hNewline t ht u hu
      exact ⟨n, hSuffix.subset hn, hRest⟩
    cases hEnd : c.atStatementEnd with
    | true =>
      cases hRest : c.rest with
      | nil => exact .nil
      | cons n rest =>
        have hNewline := lexeme_of_end hScanned hEnd n (by rw [hRest]; rfl)
        have hNext := hPart c.next (List.tail_suffix _) (by simp [Cursor.next, hRest])
        have hTail : c.next.rest = rest := by simp [Cursor.next, hRest]
        rw [hTail, hRest] at hNext
        rw [statements_newline hNewline]
        exact hNext
    | false =>
      obtain ⟨ts, hStatements, hSplit⟩ := statements_of_open hScanned hEnd
      have hSkip : c.skipStatement.rest.length < c.rest.length := by
        have hSame := congrArg List.length hSplit
        rw [List.length_append, List.length_cons] at hSame
        omega
      rw [hStatements]
      refine .cons (fun b hb t ht u hu => ?_) (hPart c.skipStatement c.skipStatement_suffix hSkip)
      obtain rfl := Option.some.inj ht
      have hu : u ∈ b := List.mem_of_mem_head? hu
      cases hRest : c.skipStatement.rest with
      | nil =>
        rw [hRest] at hb
        cases hb
      | cons n rest =>
        have hNewline := lexeme_of_end (hScanned.of_suffix c.skipStatement_suffix)
          c.atStatementEnd_skipStatement n (by rw [hRest]; rfl)
        rw [hRest, statements_newline hNewline] at hb
        have huRest := mem_of_mem_statements hb hu
        rw [hSplit, hRest] at hOrder
        obtain ⟨-, hBehind, hAcross⟩ := List.pairwise_append.mp hOrder
        refine ⟨n, by rw [hSplit, hRest]; exact List.mem_append_right _ List.mem_cons_self, hNewline, ?_, ?_⟩
        · exact Nat.le_of_lt (hAcross c.peek List.mem_cons_self n List.mem_cons_self)
        · exact (List.pairwise_cons.mp hBehind).1 u huRest

end Token

-- --------
-- Tilings
-- --------

namespace ListingLine

/-- The entries cover the bytes from `start` to `stop` one behind the other. -/
def Tiles : Nat → Nat → List ListingLine → Prop
  | start, stop, [] => start = stop
  | start, stop, e :: es => e.offset = start ∧ Tiles (start + e.length) stop es

/-- The entry has the byte at offset `k`. -/
def covers (e : ListingLine) (k : Nat) : Bool := decide (e.offset ≤ k) && decide (k < e.offset + e.length)

variable {start stop : Nat} {e : ListingLine} {es : List ListingLine}

theorem Tiles.append (h : Tiles start stop es) (he : e.offset = stop) :
    Tiles start (stop + e.length) (es ++ [e]) := by
  induction es generalizing start with
  | nil =>
    obtain rfl : start = stop := h
    exact ⟨he, rfl⟩
  | cons first es ih => exact ⟨h.1, ih h.2⟩

theorem Tiles.le (h : Tiles start stop es) : start ≤ stop := by
  induction es generalizing start with
  | nil => exact Nat.le_of_eq h
  | cons first es ih => exact (Nat.le_add_right _ _).trans (ih h.2)

/-- Each byte of a tiling has one entry, and no other byte has any. -/
theorem Tiles.countP_covers (h : Tiles start stop es) (k : Nat) :
    es.countP (·.covers k) = if start ≤ k ∧ k < stop then 1 else 0 := by
  induction es generalizing start with
  | nil =>
    obtain rfl : start = stop := h
    rw [List.countP_nil, if_neg (by omega)]
  | cons first es ih =>
    obtain ⟨hOffset, hRest⟩ := h
    have hLe := hRest.le
    have hFirst : first.covers k = decide (start ≤ k ∧ k < start + first.length) := by
      unfold covers
      rw [hOffset, Bool.decide_and]
    rw [List.countP_cons, ih hRest, hFirst]
    by_cases hHere : start ≤ k ∧ k < start + first.length
    · have hLater : ¬ (start + first.length ≤ k ∧ k < stop) := by omega
      have hInside : start ≤ k ∧ k < stop := by omega
      rw [if_neg hLater, if_pos (decide_eq_true hHere), if_pos hInside]
    · have hIff : start + first.length ≤ k ∧ k < stop ↔ start ≤ k ∧ k < stop := by omega
      rw [if_neg (show ¬ decide _ = true by rwa [decide_eq_true_eq]), Nat.add_zero]
      exact if_congr hIff rfl rfl

end ListingLine

namespace Assembly

variable {Mnemonic Mode Feature : Type}

/-- The entries of a run come in the order of the regions, and those of a region cover it. -/
structure Listed (s : Assembly Feature) : Prop where
  ordered : s.listing.Pairwise fun a b => a.region ≤ b.region
  inside  : ∀ e ∈ s.listing, e.region ≤ s.regionIndex
  tiles   : ∀ (i : Nat) (r : Region), s.regions[i]? = some r →
              ListingLine.Tiles 0 r.output.size (s.listing.filter fun e => e.region = i)

variable {s t : Assembly Feature}

/-- An entry for the end of the current region, with all other regions as they were. -/
theorem Listed.append (h : Listed s) {e : ListingLine} (hIndex : s.regionIndex ≤ t.regionIndex)
    (hListing : t.listing = s.listing ++ [e]) (hRegion : e.region = t.regionIndex)
    (hEarlier : ∀ (i : Nat) (r : Region), t.earlier[i]? = some r → s.regions[i]? = some r)
    (hTiles : ListingLine.Tiles 0 e.offset (s.listing.filter fun x => x.region = t.regionIndex))
    (hSize : e.offset + e.length = t.current.output.size) : Listed t := by
  refine ⟨?_, ?_, ?_⟩
  · rw [hListing, List.pairwise_append]
    refine ⟨h.ordered, List.pairwise_singleton _ _, fun a ha b hb => ?_⟩
    rw [List.mem_singleton.mp hb, hRegion]
    exact (h.inside a ha).trans hIndex
  · intro x hx
    rw [hListing] at hx
    rcases List.mem_append.mp hx with hx | hx
    · exact (h.inside x hx).trans hIndex
    · rw [List.mem_singleton.mp hx, hRegion]
  · intro i r hr
    rw [hListing, List.filter_append]
    rcases getElem?_regions_eq_some.mp hr with hr | ⟨rfl, rfl⟩
    · have hLess : i < t.regionIndex := (List.getElem?_eq_some_iff.mp hr).1
      have hOther : [e].filter (fun x => decide (x.region = i)) = [] := by
        rw [List.filter_singleton, hRegion, decide_eq_false (by omega)]
        rfl
      rw [hOther, List.append_nil]
      exact h.tiles i r (hEarlier i r hr)
    · have hHere : [e].filter (fun x => decide (x.region = t.regionIndex)) = [e] := by
        rw [List.filter_singleton, hRegion, decide_eq_true rfl]
        rfl
      rw [hHere, ← hSize]
      exact hTiles.append rfl

theorem Listed.congr (h : Listed s) (hRegions : t.regions = s.regions) (hListing : t.listing = s.listing) :
    Listed t := by
  have hIndex : t.regionIndex = s.regionIndex := by
    have hLength := congrArg List.length hRegions
    rw [length_regions, length_regions] at hLength
    omega
  refine ⟨?_, ?_, ?_⟩
  · rw [hListing]
    exact h.ordered
  · rw [hListing, hIndex]
    exact h.inside
  · rw [hListing, hRegions]
    exact h.tiles

section

variable [DecidableEq Mode] [Flag Mode] [Flag Feature] {job : Job Mnemonic Mode Feature}
  {s' : Assembly Feature}

/-- **A statement that gets through lists its output.** -/
theorem listed_statement (h : Listed s) (hRun : wholeStatement job s = .ok () s') :
    Listed (statement job s) := by
  have hEffect := (effect_wholeStatement job).of_ok hRun
  have hListing := listing_statement hRun
  have hHere := h.tiles _ _ s.getElem?_regions_regionIndex
  rw [statement_of_ok hRun] at hListing ⊢
  cases hEffect with
  | appends hAppends =>
    have hIndex := hAppends.regionIndex_eq
    have hOffset : (entry job s s').offset = s.current.output.size := if_pos hIndex
    have hLength : (entry job s s').length = s'.current.output.size - s.current.output.size := by
      unfold entry
      dsimp only
      rw [if_pos hIndex]
    have hGrows : s.current.output.size ≤ s'.current.output.size :=
      hAppends.encoder.output.data.length_le
    refine h.append (Nat.le_of_eq hIndex.symm) hListing rfl ?_ ?_ ?_
    · intro i r hr
      exact getElem?_regions_eq_some.mpr (.inl (hAppends.earlier ▸ hr))
    · rw [hOffset]
      have hSame : s.regionIndex = regionIndex { s' with listing := s'.listing ++ [entry job s s'] } :=
        hIndex.symm
      rw [← hSame]
      exact hHere
    · rw [hOffset, hLength]
      exact Nat.add_sub_of_le hGrows
  | opens hAt origin span hLabels =>
    obtain ⟨⟨symbols, c, rfl⟩, -⟩ := hLabels
    have hSize := (current_opened s origin span).2
    have hEmpty := regionIndex_opened s origin span
    have hLess := regionIndex_le_opened s origin span
    have hOffset : (entry job s { s.opened origin span with symbols, cursor := c }).offset = 0 :=
      offset_entry_eq_zero hEmpty
    refine h.append hLess hListing rfl ?_ ?_ ?_
    · exact fun i r hr => getElem?_regions_of_opened hr
    · rw [hOffset]
      show ListingLine.Tiles 0 0
        (s.listing.filter fun x => decide (x.region = (s.opened origin span).regionIndex))
      by_cases hIndex : (s.opened origin span).regionIndex = s.regionIndex
      · rw [hEmpty hIndex] at hHere
        rw [hIndex]
        exact hHere
      · have hNone : s.listing.filter (fun x =>
            decide (x.region = (s.opened origin span).regionIndex)) = [] := by
          refine List.filter_eq_nil_iff.mpr fun x hx => ?_
          have hLe := h.inside x hx
          rw [decide_eq_true_eq]
          omega
        rw [hNone]
        rfl
    · have hLength : (entry job s { s.opened origin span with symbols, cursor := c }).length =
          (s.opened origin span).current.output.size -
            (entry job s { s.opened origin span with symbols, cursor := c }).offset := rfl
      rw [hLength, hOffset, hSize]

-- --------
-- Runs without errors
-- --------

/-- **A run without errors lists its output.** -/
theorem listed_steps {n : Nat} (h : Listed s) (hErrors : (steps job n s).errors = []) :
    Listed (steps job n s) := by
  induction n generalizing s with
  | zero => exact h
  | succ n ih =>
    unfold steps at hErrors ⊢
    split at hErrors
    · next hEnd =>
      rw [if_pos hEnd]
      exact h
    · next hEnd =>
      rw [if_neg hEnd]
      cases hAt : s.cursor.isAt .newline with
      | true =>
        rw [step_of_newline hAt] at hErrors ⊢
        exact ih (h.congr rfl rfl) hErrors
      | false =>
        rw [step_of_statement hAt] at hErrors ⊢
        obtain ⟨s', hRun⟩ := exists_ok_of_errors hErrors
        exact ih (listed_statement h hRun) hErrors

omit [DecidableEq Mode] [Flag Mode] [Flag Feature] in
variable (job) in
/-- The line on which a statement starts. -/
def lineOf (statement : List Token) : Nat :=
  job.lineAt ((statement.head?.map fun t => t.span.start).getD 0)

/-- **The entries of a run without errors** are those of the statements that were left, line by line. -/
theorem lines_steps (hF : job.family.Shipped) {n : Nat} (hScanned : s.cursor.Scanned)
    (hn : s.cursor.rest.length ≤ n) (hErrors : (steps job n s).errors = []) :
    (steps job n s).listing.map (·.line) =
      s.listing.map (·.line) ++ (Token.statements s.cursor.rest).map (lineOf job) := by
  induction n generalizing s with
  | zero =>
    rw [List.length_eq_zero_iff.mp (Nat.le_zero.mp hn)]
    exact (List.append_nil _).symm
  | succ n ih =>
    unfold steps at hErrors ⊢
    split at hErrors
    · next hEnd =>
      rw [if_pos hEnd, List.isEmpty_iff.mp hEnd]
      exact (List.append_nil _).symm
    · next hEnd =>
      have hMore : s.cursor.isExhausted = false := Bool.eq_false_iff.mpr hEnd
      have hStep := suffix_step hF hScanned hMore
      have hNext := hScanned.of_suffix (hStep.trans (List.tail_suffix _))
      have hLength : (step job s).cursor.rest.length ≤ n := by
        have hLe := hStep.length_le
        rw [List.length_tail] at hLe
        omega
      rw [if_neg hEnd, ih hNext hLength hErrors]
      have hStatementEnd := hScanned.atStatementEnd_eq hMore
      cases hAt : s.cursor.isAt .newline with
      | true =>
        rw [step_of_newline hAt]
        have hNewline := Token.lexeme_of_end hScanned (hStatementEnd.trans hAt)
        cases hRest : s.cursor.rest with
        | nil =>
          unfold Cursor.isExhausted at hMore
          rw [hRest] at hMore
          cases hMore
        | cons t rest =>
          rw [Token.statements_newline (hNewline t (by rw [hRest]; rfl))]
          simp only [Cursor.next, hRest, List.tail_cons]
      | false =>
        rw [step_of_statement hAt] at hErrors ⊢
        obtain ⟨s', hRun⟩ := exists_ok_of_errors hErrors
        have hCursor : (statement job s).cursor = s.cursor.skipStatement := by
          rw [cursor_statement hF]
          refine if_neg fun hOver => ?_
          obtain ⟨d, s'', hFails, -⟩ := wholeStatement_of_overruns job hOver
          rw [hRun] at hFails
          cases hFails
        obtain ⟨ts, hStatements, -⟩ := Token.statements_of_open hScanned (hStatementEnd.trans hAt)
        rw [listing_statement hRun, hCursor, hStatements, List.map_append, List.append_assoc]
        rfl

end

end Assembly

-- --------
-- Programs
-- --------

/-- The number of the line is one more than the number of newlines in front of the statement. -/
def StartsAtLine (source : String) (statement : List Token) (line : Nat) : Prop :=
  ∃ t ts front rest, statement = t :: ts ∧ source.toList = front ++ rest ∧
    Text.utf8Length front = t.span.start ∧ line = 1 + front.count '\n'

/-- What the listing of a program says about its source and its output. -/
structure Program.Tiled (p : Program) (source : String) (tokens : List Token) : Prop where
  /-- There is one entry for each statement, with its line. -/
  entries  : List.Forall₂ (fun statement entry => StartsAtLine source statement entry.line)
               (Token.statements tokens) p.listing
  /-- The lines increase. -/
  lines    : p.listing.Pairwise fun a b => a.line < b.line
  /-- The regions do not decrease. -/
  regions  : p.listing.Pairwise fun a b => a.region ≤ b.region
  inside   : ∀ e ∈ p.listing, e.region < p.regions.length
  /-- The entries of a region cover it one behind the other, from its start to its end. -/
  tiles    : ∀ (i : Nat) (r : Region), p.regions[i]? = some r →
               ListingLine.Tiles 0 r.output.size (p.listing.filter fun e => e.region = i)
  /-- So each byte has one statement. -/
  bytes    : ∀ (i : Nat) (r : Region), p.regions[i]? = some r → ∀ k, k < r.output.size →
               p.listing.countP (fun e => decide (e.region = i) && e.covers k) = 1
  /-- Only the first region can be relocatable and only the last one empty, and all origins are addresses. -/
  arranged : Region.Arranged 0xffff p.regions

namespace Family

variable {Mnemonic Mode Feature : Type} {F : Family Mnemonic Mode Feature} {policy : Policy}
  {source : String} {tokens : List Token} (hScan : Token.scan source = .ok tokens)

include hScan

theorem startsAtLine_of_mem {statement : List Token} (hMem : statement ∈ Token.statements tokens) :
    StartsAtLine source statement (Assembly.lineOf (F.job policy source) statement) := by
  cases statement with
  | nil => simp [Token.statements] at hMem
  | cons t ts =>
    have ht := Token.mem_of_mem_statements hMem List.mem_cons_self
    obtain ⟨front, word, rest, hText, hSpan, -⟩ := (Token.spread_scan hScan).before ht
    have hStart : Text.utf8Length front = t.span.start := by
      rw [hSpan]
      exact (Nat.zero_add _).symm
    refine ⟨t, ts, front, word ++ rest, rfl, by rw [hText, List.append_assoc], hStart, ?_⟩
    show 1 + (newlineOffsets 0 source.toList).countP (fun n => decide (n < t.span.start)) = _
    rw [hText, List.append_assoc, ← hStart, countP_newlineOffsets]

/-- The tokens of a source come in order. -/
theorem pairwise_start : tokens.Pairwise fun a b => a.span.start < b.span.start := by
  have hSpread := Token.spread_scan hScan
  refine hSpread.pairwise.imp_of_mem fun ha _ hLe => ?_
  exact Nat.lt_of_lt_of_le (hSpread.start_lt_stop ha) hLe

/-- Statements are on different lines. -/
theorem pairwise_lineOf :
    ((Token.statements tokens).map (Assembly.lineOf (F.job policy source))).Pairwise (· < ·) := by
  have hScanned : Cursor.Scanned ⟨tokens, source.utf8ByteSize⟩ := Token.scan_lexeme_ne hScan
  have hBetween := Token.pairwise_statements hScanned (pairwise_start hScan)
  rw [List.pairwise_map]
  refine hBetween.imp_of_mem fun {a b} ha hb hNewline => ?_
  cases a with
  | nil => simp [Token.statements] at ha
  | cons t ts =>
    cases b with
    | nil => simp [Token.statements] at hb
    | cons u us =>
      obtain ⟨n, hn, hLexeme, hLe, hLt⟩ := hNewline t rfl u rfl
      refine Job.lineAt_lt _ (n := n.span.start) ?_ hLe hLt
      obtain ⟨front, word, rest, hText, hSpan, hWord⟩ := (Token.spread_scan hScan).before hn
      show n.span.start ∈ newlineOffsets 0 source.toList
      rw [hText, hWord.newline hLexeme, List.append_assoc, hSpan, Nat.zero_add]
      exact mem_newlineOffsets front rest

omit hScan

variable [DecidableEq Mode] [Flag Mode] [Flag Feature] {machine : Machine Feature} {p : Program}

/-- **The listing of a program** has its statements line by line, and tiles its output. -/
theorem listing_tiles_output (hF : F.Shipped)
    (hAssembled : (F.assemble machine policy source).result = .ok p) :
    ∃ tokens, Token.scan source = .ok tokens ∧ p.Tiled source tokens := by
  have hArranged := arranged_program hAssembled
  rw [hF.highestAddress_eq] at hArranged
  obtain ⟨tokens, final, hScan, hRun, hErrors, rfl⟩ := exists_run hAssembled
  subst hRun
  have hStart : ({ machine, cursor := ⟨tokens, source.utf8ByteSize⟩ } : Assembly Feature).Listed := by
    refine ⟨.nil, nofun, fun i r hr => ?_⟩
    rw [List.mem_singleton.mp (List.mem_of_getElem? hr)]
    rfl
  have hListed := Assembly.listed_steps hStart hErrors
  have hLines : (Assembly.steps (F.job policy source) tokens.length
      { machine, cursor := ⟨tokens, source.utf8ByteSize⟩ }).listing.map (·.line) =
        (Token.statements tokens).map (Assembly.lineOf (F.job policy source)) :=
    Assembly.lines_steps hF (Token.scan_lexeme_ne hScan) (Nat.le_refl _) hErrors
  refine ⟨tokens, hScan, ?_, ?_, hListed.ordered, ?_, hListed.tiles, ?_, hArranged⟩
  · rw [← List.forall₂_map_right_iff (f := fun e : ListingLine => e.line), hLines,
      List.forall₂_map_right_iff, List.forall₂_same]
    exact fun statement hMem => startsAtLine_of_mem hScan hMem
  · have hPairwise : ((Token.statements tokens).map
        (Assembly.lineOf (F.job policy source))).Pairwise (· < ·) := pairwise_lineOf hScan
    rw [← hLines, List.pairwise_map] at hPairwise
    exact hPairwise
  · intro e he
    rw [Assembly.length_regions]
    exact Nat.lt_succ_of_le (hListed.inside e he)
  · intro i r hr k hk
    have hCount := (hListed.tiles i r hr).countP_covers k
    rw [if_pos ⟨Nat.zero_le k, hk⟩, List.countP_filter] at hCount
    rw [← hCount]
    congr 1
    funext e
    exact Bool.and_comm _ _

set_option maxRecDepth 10000 in
/-- A label, a blank line and a second region. -/
theorem listing_tiles_output_org :
    ∃ p, (Mos65.family.assemble { features := {.base} } {}
        "go: lda #1\n\n.org 4\n jmp go ; again\n").result = .ok p ∧
      p.listing = [⟨1, 0, 0, 2⟩, ⟨3, 1, 0, 0⟩, ⟨4, 1, 0, 3⟩] ∧
      ∃ tokens, Token.scan "go: lda #1\n\n.org 4\n jmp go ; again\n" = .ok tokens ∧
        p.Tiled "go: lda #1\n\n.org 4\n jmp go ; again\n" tokens := by
  have hCheck : ((Mos65.family.assemble { features := {.base} } {}
      "go: lda #1\n\n.org 4\n jmp go ; again\n").result.toOption.any fun p =>
        p.listing == [⟨1, 0, 0, 2⟩, ⟨3, 1, 0, 0⟩, ⟨4, 1, 0, 3⟩]) = true := by
    decide +kernel
  obtain ⟨p, hp, hListing⟩ := (Option.any_eq_true _ _).mp hCheck
  have hAssembled := Action.ok_of_toOption hp
  exact ⟨p, hAssembled, beq_iff_eq.mp hListing, listing_tiles_output .mos65 hAssembled⟩

end Family

end CrossAsm
