import CrossAsm.Proofs.Assembly.Setting
import CrossAsm.Proofs.Expr.Evaluation
import CrossAsm.Proofs.Expr.Recognition
import CrossAsm.Proofs.Width

/-!
# CrossAsm — lists of data

A data directive writes its items one behind the other: texts as they are, known values in the bytes of the width, and
zeros for those that are filled in later. A known value outside the range of the width is cut to it with a warning.

* `Datum` — an item, with its bytes, patches and warnings.
* `Datum.Listed` — the items of a list from a cursor on.
* `Assembly.data_of_listed` — a list is written item by item, whatever its length.
* `Assembly.data_directive_appends` — so a statement with a list of data appends exactly this.
-/

namespace CrossAsm

-- --------
-- Items
-- --------

/-- The data directives and the widths of their items. -/
def dataNames : List (String × Width) :=
  [("byte", .byte), ("db", .byte), ("word", .word), ("dw", .word), ("long", .long), ("dword", .doubleWord),
    ("dd", .doubleWord)]

/-- An item of a list of data. -/
inductive Datum where
  | text (content : String)
  | value (e : Expr)

namespace Datum

variable (w : Width)

/-- A text is written in UTF-8, a known value modulo `2 ^ bits` with its low byte first, and any other as zeros. -/
def bytes : Datum → List UInt8
  | .text content => Text.utf8Bytes content.toList
  | .value e =>
    match e.value? with
    | some v => Width.littleEndian w.size v.toInt
    | none => List.replicate (w.bits / 8) 0

/-- The patch over an item at `offset` that is not known. -/
def patches (offset : Nat) : Datum → List Patch
  | .text _ => []
  | .value e => if e.value?.isSome then [] else [⟨offset, w, e⟩]

/-- The warning for a known value outside the range of the width. -/
def warnings : Datum → List Diagnostic
  | .text _ => []
  | .value e =>
    match e.value? with
    | some v =>
      if -2 ^ (w.bits - 1) ≤ v.toInt ∧ v.toInt ≤ 2 ^ w.bits - 1 then []
      else [.valueTooLarge v w.bits e.span]
    | none => []

/-- The patches over items from `offset` on. -/
def patchesFrom : Nat → List Datum → List Patch
  | _, [] => []
  | offset, d :: ds => d.patches w offset ++ patchesFrom (offset + (d.bytes w).length) ds

end Datum

/-- The section with items appended. -/
def Section.withData (out : Section) (w : Width) (ds : List Datum) : Section :=
  { out with
    data := out.data ++ ds.flatMap (Datum.bytes w)
    patches := out.patches ++ Datum.patchesFrom w out.size ds }

theorem Section.withData_cons (out : Section) (w : Width) (d : Datum) (ds : List Datum) :
    (out.withData w [d]).withData w ds = out.withData w (d :: ds) := by
  simp [withData, size, Datum.patchesFrom]

theorem Section.emit_eq (w : Width) (out : Section) (content : String) :
    out.emit (Text.utf8Bytes content.toList) = out.withData w [.text content] := by
  simp [withData, emit, Datum.bytes, Datum.patches, Datum.patchesFrom]

/-- A value is written as an item. -/
theorem Section.emitExpr_eq {w : Width} (hOrder : w.isBigEndian = false) (out : Section) (e : Expr) :
    out.emitExpr e w = out.withData w [.value e] := by
  have hSize : w.bits / 8 = w.size := Nat.mul_div_cancel_left w.size (by decide)
  unfold emitExpr
  cases hValue : e.value? with
  | some v => simp [withData, emit, Datum.bytes, Datum.patches, Datum.patchesFrom, hValue,
      Width.encode_eq_littleEndian hOrder]
  | none => simp [withData, Datum.bytes, Datum.patches, Datum.patchesFrom, hValue, hSize]

/-- A known value has the same bytes if it is cut to the width. -/
theorem Section.emitExpr_mask {w : Width} {e : Expr} {v : Value} (hOrder : w.isBigEndian = false) (out : Section)
    (h : e.value? = some v) : out.emitExpr (e.mask w.bits) w = out.withData w [.value e] := by
  have hBits : w.bits < 63 := by cases w <;> decide
  have hCut := Expr.value?_mask h w.bits
  have hBytes : Width.littleEndian w.size (v &&& Expr.lowMask w.bits).toInt = Width.littleEndian w.size v.toInt := by
    unfold Width.littleEndian
    rw [Expr.toInt_and_lowMask v hBits, Width.bits, Int.emod_emod]
  rw [emitExpr_eq hOrder]
  simp [withData, Datum.bytes, Datum.patches, Datum.patchesFrom, h, hCut, hBytes]

/-- A mark is a token, and reading it takes it away. -/
theorem Cursor.length_next_lt {c : Cursor} {m : Mark} (h : c.peek.lexeme = .mark m) :
    c.next.rest.length < c.rest.length := by
  obtain ⟨tokens, stop⟩ := c
  cases tokens with
  | nil => cases h
  | cons t tokens => exact Nat.lt_succ_self _

namespace Datum

variable {Mnemonic Mode Feature : Type} (F : Family Mnemonic Mode Feature) (t : SymbolTable) (w : Width)

/-- The item at a cursor, behind the output `out`, and the cursor behind it. Text is an item only where the items are
bytes. -/
inductive At (out : Section) (c : Cursor) : Datum → Cursor → Prop
  | text {content : String} (hw : w = .byte) (h : c.peek.lexeme = .text content) : At out c (.text content) c.next
  | value {e : Expr} {c' : Cursor}
      (h : Expr.parse ⟨t, out.positionExpr c.peek.span, F.isReserved⟩ 0 c = .done e c') : At out c (.value e) c'

/-- The items from a cursor to the end of the statement, with a comma between any two. -/
inductive Listed : Section → Cursor → List Datum → Cursor → Prop
  | last {out : Section} {c c' : Cursor} {d : Datum} (h : At F t w out c d c') (hEnd : c'.atStatementEnd = true) :
      Listed out c [d] c'
  | more {out : Section} {c c' c'' : Cursor} {d : Datum} {ds : List Datum} (h : At F t w out c d c')
      (hComma : c'.peek.lexeme = .mark .comma) (hMore : Listed (out.withData w [d]) c'.next ds c'') :
      Listed out c (d :: ds) c''

variable {F t w}

theorem At.length_le {out : Section} {c c' : Cursor} {d : Datum} (h : At F t w out c d c') :
    c'.rest.length ≤ c.rest.length := by
  cases h with
  | text => exact (List.tail_sublist _).length_le
  | value h => exact (Expr.reads_parse _ 0 c _ _ (congrArg Outcome.result h)).length_le

theorem Listed.atStatementEnd {out : Section} {c c' : Cursor} {ds : List Datum} (h : Listed F t w out c ds c') :
    c'.atStatementEnd = true := by
  induction h with
  | last _ hEnd => exact hEnd
  | more _ _ _ ih => exact ih

end Datum

-- --------
-- Writing items
-- --------

namespace Assembly

variable {Mnemonic Mode Feature : Type}

/-- The state with items written, and the cursor behind them. -/
def withData (s : Assembly Feature) (policy : Policy) (w : Width) (ds : List Datum) (c : Cursor) : Assembly Feature :=
  { s with
    cursor := c
    current := { s.current with output := s.current.output.withData w ds }
    reported := s.reported ++ (ds.flatMap (Datum.warnings w)).filter fun d => !policy.ignores d }

theorem withData_cons (s : Assembly Feature) (policy : Policy) (w : Width) (d : Datum) (ds : List Datum)
    (c c' : Cursor) : (s.withData policy w [d] c).withData policy w ds c' = s.withData policy w (d :: ds) c' := by
  simp [withData, Section.withData_cons]

/-- The items of data directives are not signed, and they have their low byte first. -/
theorem width_of_dataNames {name : String} {w : Width} (h : (name, w) ∈ dataNames) :
    w.isBigEndian = false ∧ ∀ v : Value,
      v.within w.low w.high = true ↔ -2 ^ (w.bits - 1) ≤ v.toInt ∧ v.toInt ≤ 2 ^ w.bits - 1 := by
  have hAll : ∀ item ∈ dataNames, item.2.isBigEndian = false ∧ item.2.isSigned = false ∧ item.2 ≠ .basePage := by
    decide
  obtain ⟨hOrder, hSigned, hPage⟩ := hAll _ h
  refine ⟨hOrder, fun v => ?_⟩
  rw [Value.within_iff, Width.toInt_low, Width.toInt_high, if_neg hPage, hSigned, if_neg Bool.false_ne_true]

section Writing

variable {job : Job Mnemonic Mode Feature} {s : Assembly Feature} {name : String} {w : Width} {e : Expr} {d : Datum}
  {ds : List Datum} {c : Cursor}

/-- Without a deny list, a warning stops nothing. -/
theorem report_of_warning {d : Diagnostic} (hDeny : job.policy.deny = []) (hWarning : d.severity = .warning)
    (a : Encoder) : Encoder.report job.policy d a =
      .ok () { a with reported := a.reported ++ [d].filter fun d => !job.policy.ignores d } := by
  have hFine : job.policy.isError d = false := by
    rw [Policy.isError, hWarning, Policy.denies, hDeny]
    rfl
  have hJudge : job.policy.judge d = .ok ([d].filter fun d => !job.policy.ignores d) := by
    rw [Policy.judge, hFine, if_neg Bool.false_ne_true]
    cases hIgnored : job.policy.ignores d with
    | true => simp [hIgnored]
    | false => simp [hIgnored]
  unfold Encoder.report
  rw [hJudge]
  rfl

theorem emitDatum_eq (hName : (name, w) ∈ dataNames) (hDeny : job.policy.deny = []) (e : Expr) (a : Encoder) :
    emitDatum job e w a = .ok ()
      { a with
        output := a.output.withData w [.value e]
        reported := a.reported ++ (Datum.warnings w (.value e)).filter fun d => !job.policy.ignores d } := by
  obtain ⟨hOrder, hRange⟩ := width_of_dataNames hName
  have hWrite (hChecked : e.checkRange w.low w.high = .ok e) (hSilent : Datum.warnings w (.value e) = []) :
      Encoder.emitValue e w a = .ok ()
        { a with
          output := a.output.withData w [.value e]
          reported := a.reported ++ (Datum.warnings w (.value e)).filter fun d => !job.policy.ignores d } := by
    rw [← Section.emitExpr_eq hOrder, hSilent, List.filter_nil, List.append_nil, Encoder.emitValue, hChecked]
    rfl
  -- Only a known value outside the range of the width is cut; all others are written as they are.
  unfold emitDatum
  cases hValue : e.value? with
  | none => exact hWrite (by simp [Expr.checkRange, hValue]) (by simp [Datum.warnings, hValue])
  | some v =>
    dsimp only
    by_cases hFits : v.within w.low w.high = true
    · rw [if_pos hFits]
      exact hWrite (by simp [Expr.checkRange, hValue, hFits]) (by simp [Datum.warnings, hValue, (hRange v).mp hFits])
    · have hWarning : Datum.warnings w (.value e) = [.valueTooLarge v w.bits e.span] := by
        simp only [Datum.warnings, hValue]
        exact if_neg fun hIn => hFits ((hRange v).mpr hIn)
      rw [if_neg hFits, Action.bind_of_ok (report_of_warning hDeny rfl a), hWarning,
        ← Section.emitExpr_mask hOrder a.output hValue]
      rfl

/-- What the encoder writes for an item. -/
theorem encode_datum {act : Encode Unit} (hAct : act s.encoder = .ok ()
      { s.encoder with
        output := s.current.output.withData w [d]
        reported := s.reported ++ (d.warnings w).filter fun d => !job.policy.ignores d }) :
    encode act s = .ok () (s.withData job.policy w [d] s.cursor) := by
  rw [encode_of_ok hAct]
  simp only [withEncoder, withData, encoder, List.flatMap_cons, List.flatMap_nil, List.append_nil]

/-- Where an expression starts, the item is a value. -/
theorem datum_of_startsExpr {reserved : String → Bool} (h : s.cursor.peek.lexeme.startsExpr reserved = true) :
    datum job w s = (expression job >>= fun e => encode (emitDatum job e w)) s := by
  unfold datum
  rw [Action.bind_of_ok (look_eq_ok.mpr ⟨rfl, rfl⟩)]
  cases hLexeme : s.cursor.peek.lexeme with
  | text content =>
    rw [hLexeme] at h
    cases h
  | _ => rfl

/-- **One item** is read and written. -/
theorem datum_of_at (hName : (name, w) ∈ dataNames) (hDeny : job.policy.deny = [])
    (h : Datum.At job.family s.symbols w s.current.output s.cursor d c) :
    datum job w s = .ok () (s.withData job.policy w [d] c) := by
  cases h with
  | @text content hw hText =>
    have hMove : moveTo s.cursor.next s = .ok () { s with cursor := s.cursor.next } := rfl
    subst hw
    unfold datum
    rw [Action.bind_of_ok (look_eq_ok.mpr ⟨rfl, rfl⟩)]
    simp only [hText]
    rw [Action.bind_of_ok hMove]
    refine encode_datum (s := { s with cursor := s.cursor.next }) ?_
    rw [← Section.emit_eq, Datum.warnings, List.filter_nil, List.append_nil]
    rfl
  | @value e c hParse =>
    rw [datum_of_startsExpr (Expr.startsExpr_of_parse hParse), Action.bind_of_ok (expression_of_done hParse)]
    exact encode_datum (s := { s with cursor := c }) (emitDatum_eq hName hDeny e _)

theorem eat_of_mark {m : Mark} (h : s.cursor.peek.lexeme = .mark m) :
    eat (.mark m) s = .ok true { s with cursor := s.cursor.next } := by
  have hEat : s.cursor.eat? (.mark m) = some (s.cursor.peek, s.cursor.next) :=
    Cursor.eat?_mark_eq_some.mpr ⟨h, rfl, rfl⟩
  unfold eat
  rw [Action.bind_of_ok (look_eq_ok.mpr ⟨rfl, rfl⟩), hEat]
  rfl

theorem eat_of_end {m : Mark} (h : s.cursor.atStatementEnd = true) : eat (.mark m) s = .ok false s := by
  have hEat : s.cursor.eat? (.mark m) = none := by
    refine Cursor.eat?_mark_eq_none fun hMark => ?_
    rw [Cursor.atStatementEnd, hMark] at h
    cases h
  unfold eat
  rw [Action.bind_of_ok (look_eq_ok.mpr ⟨rfl, rfl⟩), hEat]
  rfl

/-- **A list of data** is written item by item. Every item but the last has a comma behind it, so that there are not
more items than tokens. -/
theorem data_of_listed {t : SymbolTable} {out : Section} {start : Cursor} {fuel : Nat} (hName : (name, w) ∈ dataNames)
    (hDeny : job.policy.deny = []) (h : Datum.Listed job.family t w out start ds c) (hSymbols : s.symbols = t)
    (hOutput : s.current.output = out) (hCursor : s.cursor = start) (hFuel : start.rest.length < fuel) :
    data job w fuel s = .ok () (s.withData job.policy w ds c) := by
  -- The induction is on the list; the state in front of each item is what the items before it have made.
  induction h generalizing s fuel with
  | @last out start c d hAt hEnd =>
    subst hSymbols hOutput hCursor
    obtain ⟨fuel, rfl⟩ := Nat.exists_eq_succ_of_ne_zero (Nat.ne_zero_of_lt hFuel)
    have hEat : eat (.mark .comma) (s.withData job.policy w [d] c) = .ok false (s.withData job.policy w [d] c) :=
      eat_of_end hEnd
    rw [data, Action.bind_of_ok (datum_of_at hName hDeny hAt), Action.bind_of_ok hEat]
    rfl
  | @more out start c' c d ds hAt hComma hMore ih =>
    subst hSymbols hOutput hCursor
    obtain ⟨fuel, rfl⟩ := Nat.exists_eq_succ_of_ne_zero (Nat.ne_zero_of_lt hFuel)
    have hEat : eat (.mark .comma) (s.withData job.policy w [d] c') =
        .ok true (s.withData job.policy w [d] c'.next) := eat_of_mark hComma
    have hNext : c'.next.rest.length < fuel := by
      have hRead := hAt.length_le
      have hLess := Cursor.length_next_lt hComma
      omega
    rw [data, Action.bind_of_ok (datum_of_at hName hDeny hAt), Action.bind_of_ok hEat, if_pos rfl,
      ← withData_cons s job.policy w d ds c'.next c]
    exact ih rfl rfl rfl hNext

end Writing

-- --------
-- Statements
-- --------

/-- A data directive whose items have the width `w` stands at the cursor. -/
structure DataAt (w : Width) (c : Cursor) : Prop where
  period : c.peek.lexeme = .mark .period
  name   : ∃ name, c.next.peek.lexeme = .identifier name ∧ (Text.lower name, w) ∈ dataNames

theorem DataAt.directive?_eq {w : Width} {c : Cursor} (h : DataAt w c) : c.directive? = some (.data w) := by
  obtain ⟨name, hName, hData⟩ := h.name
  have hPeriod : c.isAt (.mark .period) = true := by
    rw [Cursor.isAt, h.period]
    rfl
  have hDirective : Directive.ofName? name = some (.data w) := by
    unfold Directive.ofName?
    generalize Text.lower name = lower at hData
    simp only [dataNames, List.mem_cons, Prod.mk.injEq, List.not_mem_nil, or_false] at hData
    rcases hData with ⟨rfl, rfl⟩ | ⟨rfl, rfl⟩ | ⟨rfl, rfl⟩ | ⟨rfl, rfl⟩ | ⟨rfl, rfl⟩ | ⟨rfl, rfl⟩ | ⟨rfl, rfl⟩ <;> rfl
  rw [Cursor.directive?, if_pos hPeriod, ← Cursor.peek_next, hName]
  exact hDirective

section Statements

variable [DecidableEq Mode] [Flag Mode] [Flag Feature] {job : Job Mnemonic Mode Feature} {s s' : Assembly Feature}

/-- A statement that ends where its parts do gets through. -/
theorem wholeStatement_of_end (h : parts job s = .ok () s') (hEnd : s'.cursor.atStatementEnd = true) :
    wholeStatement job s = .ok () s' := by
  unfold wholeStatement
  rw [Action.bind_of_ok h, Action.bind_of_ok (look_eq_ok.mpr ⟨rfl, rfl⟩), if_pos hEnd]
  rfl

/-- The list of a data directive is all that its statement has behind the label. -/
theorem parts_of_dataAt {w : Width} {symbols : SymbolTable} {ds : List Datum} {c : Cursor}
    (hDeny : job.policy.deny = []) (hAt : DataAt w s.cursor.behindLabel) (hLabel : s.symbolsHere? = some symbols)
    (hItems : Datum.Listed job.family symbols w s.current.output s.cursor.behindLabel.next.next ds c) :
    parts job s = .ok () ({ s with symbols }.withData job.policy w ds c) := by
  have hDirective := hAt.directive?_eq
  obtain ⟨name, -, hName⟩ := hAt.name
  rcases parts_of_directive job hDirective with ⟨hNone, -⟩ | ⟨symbols', hSome, hParts⟩
  · cases hNone.symm.trans hLabel
  · obtain rfl := Option.some.inj (hSome.symm.trans hLabel)
    have hCarry : carryOut job (s.cursor.behindLabel.peekAt 1).span (.data w)
        { s with symbols := symbols', cursor := s.cursor.behindLabel.next.next } =
          .ok () ({ s with symbols := symbols' }.withData job.policy w ds c) :=
      (Action.bind_of_ok (look_eq_ok.mpr ⟨rfl, rfl⟩) _).trans
        (data_of_listed hName hDeny hItems rfl rfl rfl (Nat.lt_succ_self _))
    -- The label is already defined: only `.org` defines its own after it has been carried out.
    have hOrigin : s.originLabel? = none := by
      refine if_neg fun hOrg => ?_
      cases hDirective.symm.trans ((Cursor.atOrigin_iff _).mp hOrg)
    rw [hParts, Action.bind_of_ok hCarry, nameOrigin, hOrigin]
    rfl

/-- **Lists of data.** If all items of the list can be read, and no warning is denied, the statement appends their
bytes, one behind the other, and a patch for each one that is not known yet, and it reports a warning for each constant
that its width does not hold, in the order of the items. It does nothing else but define its label and list itself. -/
theorem data_directive_appends (job : Job Mnemonic Mode Feature) (s : Assembly Feature) {w : Width}
    {symbols : SymbolTable} {ds : List Datum} {c : Cursor} (hDeny : job.policy.deny = [])
    (hAt : DataAt w s.cursor.behindLabel) (hLabel : s.symbolsHere? = some symbols)
    (hItems : Datum.Listed job.family symbols w s.current.output s.cursor.behindLabel.next.next ds c) :
    statement job s =
      { s with
        symbols
        cursor := c
        current := { s.current with
          output := { s.current.output with
            data := s.current.output.data ++ ds.flatMap (Datum.bytes w)
            patches := s.current.output.patches ++ Datum.patchesFrom w s.current.output.size ds } }
        reported := s.reported ++ (ds.flatMap (Datum.warnings w)).filter fun d => !job.policy.ignores d
        listing := s.listing ++ [⟨job.lineAt s.cursor.peek.span.start, s.regionIndex, s.current.output.size,
          (ds.flatMap (Datum.bytes w)).length⟩] } ∧
      (job.policy.ignore = [] →
        (ds.flatMap (Datum.warnings w)).filter (fun d => !job.policy.ignores d) =
          ds.flatMap (Datum.warnings w)) := by
  have hWhole : wholeStatement job s = .ok () ({ s with symbols }.withData job.policy w ds c) :=
    wholeStatement_of_end (parts_of_dataAt hDeny hAt hLabel hItems) hItems.atStatementEnd
  have hEntry : entry job s ({ s with symbols }.withData job.policy w ds c) =
      ⟨job.lineAt s.cursor.peek.span.start, s.regionIndex, s.current.output.size,
        (ds.flatMap (Datum.bytes w)).length⟩ := by
    have hSame : ({ s with symbols }.withData job.policy w ds c).regionIndex = s.regionIndex := rfl
    have hSize : ({ s with symbols }.withData job.policy w ds c).current.output.size =
        s.current.output.size + (ds.flatMap (Datum.bytes w)).length := List.length_append
    unfold entry
    rw [if_pos hSame, hSame, hSize]
    dsimp only
    rw [Nat.add_sub_cancel_left]
  refine ⟨?_, fun hIgnore => List.filter_eq_self.mpr fun d _ => ?_⟩
  · rw [statement_of_ok hWhole, hEntry]
    rfl
  · rw [Policy.ignores, hIgnore]
    rfl

/-- At the start of `.DB "é",-129,*`: a text, a constant that is cut, and a value to be filled in. -/
theorem data_directive_appends_text :
    ∃ s : Assembly Mos65.Feature, (Token.scan ".DB \"é\",-129,*").toOption = some s.cursor.rest ∧
      (statement (Mos65.family.job {} ".DB \"é\",-129,*") s).current.output =
        ⟨none, [0xc3, 0xa9, 0x7f, 0], [⟨3, .byte, .counter 3 ⟨14, 1⟩⟩]⟩ ∧
      (statement (Mos65.family.job {} ".DB \"é\",-129,*") s).reported = [.valueTooLarge (-129) 8 ⟨9, 4⟩] := by
  let s : Assembly Mos65.Feature := {
    machine := { features := {.base} }
    cursor := ⟨[⟨.mark .period, ⟨0, 1⟩⟩, ⟨.identifier "DB", ⟨1, 2⟩⟩, ⟨.text "é", ⟨4, 4⟩⟩, ⟨.mark .comma, ⟨8, 1⟩⟩,
      ⟨.mark .minus, ⟨9, 1⟩⟩, ⟨.number 129, ⟨10, 3⟩⟩, ⟨.mark .comma, ⟨13, 1⟩⟩, ⟨.mark .star, ⟨14, 1⟩⟩], 15⟩ }
  have hScan : (Token.scan ".DB \"é\",-129,*").toOption = some s.cursor.rest := by decide +kernel
  have hAt : DataAt .byte s.cursor.behindLabel := ⟨rfl, "DB", rfl, by decide +kernel⟩
  have hLabel : s.symbolsHere? = some {} := by decide +kernel
  have hItems : Datum.Listed Mos65.family {} .byte s.current.output s.cursor.behindLabel.next.next
      [.text "é", .value (.const (-129) ⟨9, 4⟩), .value (.counter 3 ⟨14, 1⟩)] ⟨[], 15⟩ :=
    .more (.text rfl rfl) rfl (.more (.value rfl) rfl (.last (.value rfl) rfl))
  have hStatement := (data_directive_appends (Mos65.family.job {} ".DB \"é\",-129,*") s rfl hAt hLabel hItems).1
  refine ⟨s, hScan, ?_, ?_⟩
  · rw [hStatement]
    decide +kernel
  · rw [hStatement]
    decide +kernel

end Statements

end Assembly

end CrossAsm
