import CrossAsm.Proofs.Assembly.Likeness
import CrossAsm.Proofs.Token.Slice

/-!
# CrossAsm — diagnostics point into the source

Every place that a diagnostic points at is a piece of the source text, cut between two characters. The tokenizer
makes such places by counting the bytes of what it reads. Everything behind it only joins them, and the places that
are made in this way have the ends of the ones they are made of.

* `Span.Within` — a place inside a text.
* `Token.pointsInto_of_scan` — what is no token is found at such a place.
* `Likeness.inside` — the correspondence under which a run is like itself only if all its places are such ones.
* `Family.labels_within_source` — so all labels point into the source.
-/

namespace CrossAsm

open CrossAsm.Text (utf8Length)

variable {source : String}

-- --------
-- Places inside a text
-- --------

namespace Text

/-- From byte `pos` on, the text goes on with the characters `rest` to its end. -/
def RestAt (source : String) (pos : Nat) (rest : List Char) : Prop :=
  ∃ front, source.toList = front ++ rest ∧ utf8Length front = pos

namespace RestAt

variable {pos : Nat} {c : Char} {word rest : List Char}

theorem start : RestAt source 0 source.toList := ⟨[], rfl, rfl⟩

theorem append (h : RestAt source pos (word ++ rest)) : RestAt source (pos + utf8Length word) rest := by
  obtain ⟨front, hText, rfl⟩ := h
  exact ⟨front ++ word, by rw [hText, List.append_assoc], utf8Length_append front word⟩

theorem tail (h : RestAt source pos (c :: rest)) : RestAt source (pos + c.utf8Size) rest :=
  @append source pos [c] rest h

theorem length_eq (h : RestAt source pos rest) : utf8Length source.toList - pos = utf8Length rest := by
  obtain ⟨front, hText, rfl⟩ := h
  rw [hText, utf8Length_append, Nat.add_sub_cancel_left]

end RestAt

/-- A byte offset is one between two characters if characters stand before it. -/
theorem isValid_iff {pos : Nat} : String.Pos.Raw.IsValid source ⟨pos⟩ ↔ ∃ rest, RestAt source pos rest := by
  rw [String.Pos.Raw.isValid_iff_exists_append]
  constructor
  · rintro ⟨front, rest, rfl, hn⟩
    refine ⟨rest.toList, front.toList, String.toList_append, ?_⟩
    rw [Token.utf8Length_toList]
    exact (congrArg String.Pos.Raw.byteIdx hn).symm
  · rintro ⟨rest, front, hText, hn⟩
    refine ⟨String.ofList front, String.ofList rest, ?_, ?_⟩
    · rw [← String.ofList_append, ← hText, String.ofList_toList]
    · rw [String.Pos.Raw.ext_iff, ← hn]
      show utf8Length front = (String.ofList front).utf8ByteSize
      rw [← Token.utf8Length_toList, String.toList_ofList]

end Text

open CrossAsm.Text (RestAt)

namespace Span

/-- The span ends inside the text, and starts and ends between two of its characters. -/
structure Within (source : String) (s : Span) : Prop where
  stop_le : s.start + s.length ≤ source.utf8ByteSize
  start   : String.Pos.Raw.IsValid source ⟨s.start⟩
  stop    : String.Pos.Raw.IsValid source ⟨s.start + s.length⟩

namespace Within

variable {s t : Span}

/-- What stands between two such offsets. -/
theorem between {a b : Nat} (ha : String.Pos.Raw.IsValid source ⟨a⟩) (hb : String.Pos.Raw.IsValid source ⟨b⟩)
    (hOrder : a ≤ b) : Within source ⟨a, b - a⟩ := by
  have hStop : a + (b - a) = b := by omega
  refine ⟨?_, ha, ?_⟩
  · show a + (b - a) ≤ _
    rw [hStop]
    exact hb.le_rawEndPos
  · show String.Pos.Raw.IsValid source ⟨a + (b - a)⟩
    rwa [hStop]

/-- The next characters. -/
theorem of_rest {pos : Nat} {word rest : List Char} (h : RestAt source pos (word ++ rest)) :
    Within source ⟨pos, utf8Length word⟩ := by
  have hWord := between (Text.isValid_iff.mpr ⟨_, h⟩) (Text.isValid_iff.mpr ⟨rest, h.append⟩) (Nat.le_add_right _ _)
  rwa [Nat.add_sub_cancel_left] at hWord

theorem hull (hs : Within source s) (ht : Within source t) : Within source (s.hull t) := by
  refine between ?_ ?_ ?_
  · rcases Nat.le_total s.start t.start with h | h
    · rw [Nat.min_eq_left h]
      exact hs.start
    · rw [Nat.min_eq_right h]
      exact ht.start
  · rcases Nat.le_total s.stop t.stop with h | h
    · rw [Nat.max_eq_right h]
      exact ht.stop
    · rw [Nat.max_eq_left h]
      exact hs.stop
  · simp only [Span.stop]
    omega

/-- A span that would end before its start is empty. -/
theorem through (hs : Within source s) (ht : Within source t) : Within source (s.through t) := by
  rcases Nat.le_total s.start t.stop with h | h
  · exact between hs.start ht.stop h
  · unfold Span.through
    rw [Nat.sub_eq_zero_of_le h, ← Nat.sub_self s.start]
    exact between hs.start hs.start (Nat.le_refl _)

theorem zero : Within source .zero := @of_rest source 0 [] source.toList .start

end Within

end Span

/-- All labels of the diagnostic are inside the text. -/
def Diagnostic.PointsInto (source : String) (d : Diagnostic) : Prop :=
  ∀ label ∈ d.labels, label.2.Within source

theorem Diagnostic.pointsInto_of_places {d : Diagnostic} (h : ∀ s ∈ d.places, s.Within source) :
    d.PointsInto source :=
  fun _ hLabel => h _ (List.mem_map_of_mem hLabel)

-- --------
-- What is no token
-- --------

namespace Token

variable {pos : Nat} {cs : List Char} {c : Char} {d : Diagnostic}

/-- A diagnostic about the next characters. -/
theorem pointsInto_of_word {word rest : List Char} (h : RestAt source pos (word ++ rest))
    (hPlaces : d.places = [⟨pos, utf8Length word⟩]) : d.PointsInto source := by
  refine Diagnostic.pointsInto_of_places fun s hs => ?_
  rw [hPlaces, List.mem_singleton] at hs
  rw [hs]
  exact .of_rest h

theorem pointsInto_of_char (h : RestAt source pos (c :: cs)) (hPlaces : d.places = [⟨pos, c.utf8Size⟩]) :
    d.PointsInto source :=
  @pointsInto_of_word source pos d [c] cs h hPlaces

/-- A diagnostic about all that comes next. -/
theorem pointsInto_of_rest (h : RestAt source pos cs)
    (hPlaces : d.places = [⟨pos, utf8Length source.toList - pos⟩]) : d.PointsInto source := by
  rw [← List.append_nil cs] at h
  refine pointsInto_of_word h ?_
  rw [hPlaces, h.length_eq, List.append_nil]

/-- A backslash at the end is a single byte. -/
theorem pointsInto_cutEscape (h : RestAt source pos ['\\']) :
    (cutEscape (utf8Length source.toList)).PointsInto source := by
  obtain ⟨front, hText, rfl⟩ := id h
  refine @pointsInto_of_word source _ _ [] ['\\'] h ?_
  rw [hText, Text.utf8Length_append]
  rfl

theorem pointsInto_of_stringBody {start : Nat} {opening : List Char} (hOpening : RestAt source start opening)
    (hRest : RestAt source pos cs) (h : stringBody start (utf8Length source.toList) pos cs = .error d) :
    d.PointsInto source := by
  fun_induction stringBody start (utf8Length source.toList) pos cs with
  | case1 =>
    cases h
    exact pointsInto_of_rest hOpening rfl
  | case2 => cases h
  | case3 =>
    cases h
    exact pointsInto_cutEscape hRest
  | case4 =>
    cases h
    exact pointsInto_of_char hRest.tail rfl
  | case5 pos e es x _ d' _ hRec ih => exact ih hRest.tail.tail (hRec.trans (by rw [Except.error.inj h]))
  | case6 => cases h
  | case7 pos c cs _ _ _ hRec ih => exact ih hRest.tail (hRec.trans (by rw [Except.error.inj h]))
  | case8 => cases h

theorem pointsInto_of_closeCharacter {start : Nat} {opening taken : List Char} {x : Char}
    (hOpening : RestAt source start opening) (hRest : RestAt source pos cs)
    (h : closeCharacter start (utf8Length source.toList) pos x taken cs = .error d) : d.PointsInto source := by
  unfold closeCharacter at h
  split at h
  · cases h
    exact pointsInto_of_rest hOpening rfl
  · split at h
    · cases h
    · cases h
      exact pointsInto_of_char hRest rfl

theorem pointsInto_of_characterPiece (hRest : RestAt source pos (c :: cs))
    (h : characterPiece (utf8Length source.toList) pos c cs = .error d) : d.PointsInto source := by
  unfold characterPiece at h
  split at h
  · cases h
    exact pointsInto_of_rest hRest rfl
  · split at h
    · next hSlash =>
      subst hSlash
      split at h
      · cases h
        exact pointsInto_cutEscape hRest.tail
      · split at h
        · cases h
          exact pointsInto_of_char hRest.tail.tail rfl
        · exact pointsInto_of_closeCharacter hRest hRest.tail.tail.tail h
    · exact pointsInto_of_closeCharacter hRest hRest.tail.tail h

/-- A fault in the first `n` characters of a word that is written in single bytes. -/
theorem pointsInto_of_ascii {word rest : List Char} {n : Nat} (hRest : RestAt source pos (word ++ rest))
    (hAscii : ∀ c ∈ word, c.utf8Size = 1) (hn : n ≤ word.length) (hPlaces : d.places = [⟨pos, n⟩]) :
    d.PointsInto source := by
  rw [← List.take_append_drop n word, List.append_assoc] at hRest
  refine pointsInto_of_word hRest ?_
  rw [hPlaces, Text.utf8Length_of_ascii fun c hc => hAscii c (List.mem_of_mem_take hc), List.length_take,
    Nat.min_eq_left hn]

/-- The fault of a number is its word without the underscores. -/
theorem pointsInto_of_numberPiece (hc : isNameChar c = true) (hRest : RestAt source pos (c :: cs))
    (h : numberPiece pos c cs = .error d) : d.PointsInto source := by
  have hAscii : ∀ e ∈ c :: cs.takeWhile isNameChar, e.utf8Size = 1 :=
    List.forall_mem_cons.mpr ⟨utf8Size_of_isNameChar hc, fun e he =>
      utf8Size_of_isNameChar (List.all_eq_true.mp List.all_takeWhile e he)⟩
  rw [← @List.takeWhile_append_dropWhile _ isNameChar cs, ← List.cons_append] at hRest
  unfold numberPiece at h
  dsimp only at h
  split at h
  · cases h
  · cases h
    refine pointsInto_of_ascii hRest hAscii ?_ rfl
    exact Nat.le_trans (List.length_filter_le _ _) (Nat.le_of_eq (List.length_map _))

theorem pointsInto_of_radixPiece {radix : Nat} (hc : c.utf8Size = 1) (hRest : RestAt source pos (c :: cs))
    (h : radixPiece radix pos c cs = .error d) : d.PointsInto source := by
  have hAscii : ∀ e ∈ c :: cs.takeWhile (Text.isDigitIn radix), e.utf8Size = 1 :=
    List.forall_mem_cons.mpr ⟨hc, fun e he =>
      utf8Size_of_isNameChar (isNameChar_of_isDigitIn (List.all_eq_true.mp List.all_takeWhile e he))⟩
  rw [← @List.takeWhile_append_dropWhile _ (Text.isDigitIn radix) cs, ← List.cons_append] at hRest
  unfold radixPiece at h
  dsimp only at h
  split at h
  · cases h
  · cases h
    exact pointsInto_of_ascii hRest hAscii (Nat.le_refl _) rfl

theorem pointsInto_of_markPiece (hRest : RestAt source pos (c :: cs)) (h : markPiece pos c cs = .error d) :
    d.PointsInto source := by
  unfold markPiece at h
  split at h
  · cases h
  · cases h
  · split at h
    · cases h
    · cases h
      exact pointsInto_of_char hRest rfl

/-- **What is no token** is found at a place inside the source. -/
theorem pointsInto_of_piece {afterValue : Bool} (hRest : RestAt source pos (c :: cs))
    (h : piece (utf8Length source.toList) pos afterValue c cs = .error d) : d.PointsInto source := by
  have hCase := pieceCase (utf8Length source.toList) pos afterValue c cs
  generalize piece (utf8Length source.toList) pos afterValue c cs = r at h hCase
  cases hCase with
  | newline | blank | comment | name => cases h
  | string =>
    unfold stringPiece at h
    split at h
    · next hBody =>
      cases h
      exact pointsInto_of_stringBody hRest hRest.tail hBody
    · cases h
  | character => exact pointsInto_of_characterPiece hRest h
  | number hDigit =>
    refine pointsInto_of_numberPiece ?_ hRest h
    rw [isNameChar, Char.isAlphanum, hDigit, Bool.or_true, Bool.true_or]
  | radix radix hMark =>
    refine pointsInto_of_radixPiece ?_ hRest h
    rcases hMark with rfl | rfl <;> rfl
  | mark => exact pointsInto_of_markPiece hRest h

theorem pointsInto_of_scan (h : scan source = .error d) : d.PointsInto source := by
  obtain ⟨pos, afterValue, c, cs, hReaches, hPiece⟩ := reaches_of_scanFrom_error .start h
  exact pointsInto_of_piece hReaches.front hPiece

theorem within_of_scan {tokens : List Token} {t : Token} (h : scan source = .ok tokens) (ht : t ∈ tokens) :
    t.span.Within source := by
  obtain ⟨front, word, rest, hText, hSpan, -⟩ := (spread_scan h).before ht
  rw [List.append_assoc] at hText
  rw [hSpan, Nat.zero_add]
  exact .of_rest ⟨front, hText, rfl⟩

end Token

-- --------
-- All of a run
-- --------

/-- The places inside a text correspond to themselves. -/
def Likeness.inside (source : String) : Likeness :=
  .verbatimly (fun s t => s = t ∧ s.Within source) Eq True ⟨rfl, .zero⟩
    (fun h h' => ⟨Span.hull_congr h.1 h'.1, h.2.hull h'.2⟩)
    (fun h h' => ⟨Span.through_congr h.1 h'.1, h.2.through h'.2⟩)

namespace Diagnostic

variable {d : Diagnostic}

theorem like_inside_iff : d.Like (.inside source) d ↔ d.PointsInto source := by
  constructor
  · intro h
    refine pointsInto_of_places fun s hs => ?_
    exact (List.forall₂_same.mp h.places s hs).2
  · intro h
    refine ⟨rfl, List.forall₂_same.mpr fun s hs => ?_, fun _ => rfl, .inr trivial⟩
    obtain ⟨label, hLabel, rfl⟩ := List.mem_map.mp hs
    exact ⟨rfl, h label hLabel⟩

end Diagnostic

/-- A failure that is like itself points into the source. -/
theorem Failure.pointsInto_of_like {f : Failure} (h : f.Like (.inside source) f) :
    ∀ d ∈ f.diagnostics, d.PointsInto source := by
  intro d hd
  cases h with
  | single h =>
    rw [List.mem_singleton.mp hd]
    exact Diagnostic.like_inside_iff.mp h
  | collected h => exact Diagnostic.like_inside_iff.mp (List.forall₂_same.mp h d hd)

/-- **A source is like itself** with the places inside of it. -/
theorem sources_inside (source : String) : (Likeness.inside source).Sources source source := by
  refine ⟨?_, ⟨.same rfl, ⟨rfl, ?_⟩, rfl⟩, trivial, ?_⟩
  · cases hScan : Token.scan source with
    | error d => exact .error (Diagnostic.like_inside_iff.mpr (Token.pointsInto_of_scan hScan))
    | ok tokens =>
      exact .ok (List.forall₂_same.mpr fun t ht =>
        ⟨.refl (fun _ => rfl) t.lexeme, ⟨rfl, Token.within_of_scan hScan ht⟩, rfl⟩)
  · rw [← Token.utf8Length_toList]
    exact @Span.Within.of_rest source _ [] [] ⟨source.toList, (List.append_nil _).symm, rfl⟩
  · rintro a b rfl
    rfl

namespace Family

variable {Mnemonic Mode Feature : Type} [DecidableEq Mode] [Flag Mode] [Flag Feature]
  {F : Family Mnemonic Mode Feature}

/-- **Every diagnostic points into the source.** Whatever is found wrong with a text, while it is cut into tokens,
assembled or linked, and whatever is reported on the way, all labels are pieces of the text between characters. -/
theorem labels_within_source (hF : F.Shipped) (machine : Machine Feature) (policy : Policy) (source : String)
    (base : Value) :
    (∀ d, Token.scan source = .error d → d.PointsInto source) ∧
    (∀ d ∈ (F.assemble machine policy source).reported, d.PointsInto source) ∧
    (∀ f, (F.assemble machine policy source).result = .error f → ∀ d ∈ f.diagnostics, d.PointsInto source) ∧
    ∀ p, (F.assemble machine policy source).result = .ok p →
      (∀ f, p.linkSections base = .error f → ∀ d ∈ f.diagnostics, d.PointsInto source) ∧
      ∀ f, p.link base = .error f → ∀ d ∈ f.diagnostics, d.PointsInto source := by
  have hRun := assemble_like (hF.respects (.inside source)) trivial machine policy (sources_inside source)
  have hResult := hRun.result
  refine ⟨fun _ h => Token.pointsInto_of_scan h, fun d hd => ?_, fun f hf => ?_,
    fun p hp => ⟨fun f hf => ?_, fun f hf => ?_⟩⟩
  · exact Diagnostic.like_inside_iff.mp (List.forall₂_same.mp hRun.reported d hd)
  · rw [hf, Alike.error_iff] at hResult
    exact Failure.pointsInto_of_like hResult
  · rw [hp, Alike.ok_iff] at hResult
    have hLinked : Alike (Failure.Like (.inside source)) _ (p.linkSections base) (p.linkSections base) :=
      hResult.linkSections fun _ => rfl
    rw [hf, Alike.error_iff] at hLinked
    exact Failure.pointsInto_of_like hLinked
  · rw [hp, Alike.ok_iff] at hResult
    have hLinked : Alike (Failure.Like (.inside source)) _ (p.link base) (p.link base) := hResult.link fun _ => rfl
    rw [hf, Alike.error_iff] at hLinked
    exact Failure.pointsInto_of_like hLinked

set_option maxRecDepth 10000 in
/-- An accent takes two bytes. -/
theorem labels_within_source_accent :
    Token.scan ".db \"caf\u00e9\"\n\"\u00e9" = .error (.unexpectedEnd "'\"'" ⟨12, 3⟩) ∧
    (Diagnostic.unexpectedEnd "'\"'" ⟨12, 3⟩).PointsInto ".db \"caf\u00e9\"\n\"\u00e9" := by
  have hScan : Token.scan ".db \"caf\u00e9\"\n\"\u00e9" = .error (.unexpectedEnd "'\"'" ⟨12, 3⟩) := by decide +kernel
  exact ⟨hScan, (labels_within_source .z80 ⟨{.z80}, 0, true⟩ {} _ 0).1 _ hScan⟩

end Family

end CrossAsm
