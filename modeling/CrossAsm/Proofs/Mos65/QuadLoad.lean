import CrossAsm.Proofs.LateBound
import CrossAsm.Proofs.Mos65.Execution
import CrossAsm.Proofs.Mos65.LongJump

/-!
# CrossAsm — LDQ with an immediate

The processor has no 32-bit load of an immediate. It is expanded to loads of the four bytes, and a byte that is known
to be the one in A is copied from there.

* `quadByte` — the bytes of a 32-bit value.
* `Immediate` — how the operand is written, and `operands_of_immediate`, how it is read.
* `quadOps` — the instructions that the code consists of.
* `finish_loadQuad` — what the encoder writes, and `ops_of_linked`, what becomes of it.
* `quad_immediate_loads_bytes` — so the code leaves the bytes of the value in A, X, Y and Z.
-/

namespace CrossAsm.Mos65

open Encoder

-- --------
-- Values of 32 bits
-- --------

/-- Byte `n` of a value modulo `2 ^ 32`, from the lowest one on. -/
def quadByte (v : Value) (n : Nat) : UInt8 := UInt8.ofNat ((v.toInt % 2 ^ 32).toNat / 256 ^ n)

/-- A value of 32 bits, signed or unsigned. -/
def IsQuad (v : Value) : Prop := -0x80000000 ≤ v ∧ v ≤ 0xffffffff

instance (v : Value) : Decidable (IsQuad v) := inferInstanceAs (Decidable (_ ∧ _))

theorem isQuad_iff {v : Value} : IsQuad v ↔ v.within (-0x80000000) 0xffffffff = true := by
  simp only [IsQuad, Value.within, Bool.and_eq_true, decide_eq_true_eq]

theorem quadByte_eq (v : Value) {n : Nat} (hn : n ≤ 3) :
    quadByte v n = UInt8.ofNat (v.toInt / 256 ^ n % 256).toNat := by
  apply UInt8.toNat_inj.mp
  rw [quadByte, UInt8.toNat_ofNat', UInt8.toNat_ofNat']
  rcases (show n = 0 ∨ n = 1 ∨ n = 2 ∨ n = 3 by omega) with rfl | rfl | rfl | rfl <;> omega

/-- How far a value is shifted to get at a byte. -/
inductive ByteShift : Nat → Value → Prop
  | first : ByteShift 0 0
  | second : ByteShift 1 (-8)
  | third : ByteShift 2 (-16)
  | fourth : ByteShift 3 (-24)

section

variable {n : Nat} {amount : Value} (h : ByteShift n amount)

include h

theorem ByteShift.le_three : n ≤ 3 := by cases h <;> decide

theorem ByteShift.toInt (v : Value) :
    (Expr.shifted v amount &&& Expr.lowMask 8).toInt = v.toInt / 256 ^ n % 256 := by
  refine quadByte_value v ?_
  cases h <;> decide

theorem ByteShift.fits (v : Value) : Width.byte.fits (Expr.shifted v amount &&& Expr.lowMask 8) = true := by
  rw [Width.fits_byte_iff, h.toInt v]
  omega

theorem ByteShift.encode (v : Value) :
    Width.byte.encode (Expr.shifted v amount &&& Expr.lowMask 8) = [quadByte v n] := by
  rw [Width.encode_byte, h.toInt v, quadByte_eq v h.le_three, Int.emod_emod]

/-- A byte is the lowest one as a number if it is as a byte. -/
theorem ByteShift.eq_low_iff (v : Value) :
    Expr.shifted v amount &&& Expr.lowMask 8 = Expr.shifted v 0 &&& Expr.lowMask 8 ↔ quadByte v n = quadByte v 0 := by
  rw [← Int64.toInt_inj, h.toInt v, ByteShift.first.toInt v, quadByte_eq v h.le_three, quadByte_eq v (Nat.zero_le 3),
    ← UInt8.toNat_inj, UInt8.toNat_ofNat', UInt8.toNat_ofNat']
  omega

end

/-- The byte of an expression that is shifted to the front. -/
def byteOf (e : Expr) (amount : Value) : Expr := (e.shift amount).mask 8

theorem evaluate_byteOf (t : SymbolTable) (base : Value) (e : Expr) (amount : Value) :
    t.evaluate base (byteOf e amount) =
      (t.evaluate base e).map fun v => Expr.shifted v amount &&& Expr.lowMask 8 := by
  show Expr.evaluate base _ ((e.shift amount).mask 8) = Except.map _ (Expr.evaluate base _ e)
  rw [Expr.evaluate_mask, Expr.evaluate_shift]
  cases Expr.evaluate base (t.valueOf base t.symbols) e <;> rfl

theorem value?_byteOf (e : Expr) (amount : Value) :
    (byteOf e amount).value? = e.value?.map fun v => Expr.shifted v amount &&& Expr.lowMask 8 := by
  cases hValue : e.value? with
  | none => exact Expr.value?_mask_eq_none (Expr.value?_shift_eq_none hValue amount) 8
  | some v => exact Expr.value?_mask (Expr.value?_shift hValue amount) 8

/-- Whether a byte is known to be the lowest one. -/
def copies (e : Expr) (amount : Value) : Bool :=
  (byteOf e amount).isConstant && (byteOf e amount).value? == (byteOf e 0).value?

theorem copies_iff {n : Nat} {amount : Value} (h : ByteShift n amount) {e : Expr} :
    copies e amount = true ↔ ∃ v, e.value? = some v ∧ quadByte v n = quadByte v 0 := by
  unfold copies
  rw [← Expr.isSome_value?, value?_byteOf, value?_byteOf]
  cases e.value? with
  | none => simp
  | some v => simp [h.eq_low_iff v]

theorem fits_byteOf {n : Nat} {amount v : Value} (h : ByteShift n amount) {e : Expr}
    (hValue : (byteOf e amount).value? = some v) : Width.byte.fits v = true := by
  rw [value?_byteOf] at hValue
  obtain ⟨u, -, rfl⟩ := Option.map_eq_some_iff.mp hValue
  exact h.fits u

-- --------
-- Operands
-- --------

/-- The operand of an instruction is `#` and the expression `x`, and nothing stands behind it. -/
structure Immediate (w : Pending Mnemonic Feature) (x : Phrase) : Prop where
  written : ∃ hash rest, hash.lexeme = .mark .hash ∧
    w.state.cursor = ⟨hash :: (x.tokens ++ rest), w.state.cursor.stop⟩ ∧
    Cursor.atStatementEnd ⟨rest, w.state.cursor.stop⟩ = true
  grouped : x.fits 0 = true
  names   : ∀ name ∈ x.names, isReserved name = false
  divides : x.dividesByZero (w.scope family) = false

/-- `#` starts an immediate. -/
theorem grammar_of_hash {scope : Scope} {machine : Machine Feature} {request : Request Mode} {c : Cursor}
    (h : c.peek.lexeme = .mark .hash) : grammar scope machine request c = immediate scope request c := by
  have hEnd : c.atOperandEnd = false := by simp [Cursor.atOperandEnd, h, Lexeme.endsOperand]
  have hHash : c.isAt (.mark .hash) = true := by simp [Cursor.isAt, h, Lexeme.kind]
  have hWord : c.eatWord? "a" = none := by simp [Cursor.eatWord?, h, Lexeme.name?]
  have hAccumulator : accumulator c = .nothing := Parser.bind_of_nothing (Parser.word_of_eatWord?_none hWord)
  show (if c.atOperandEnd then _ else _ : Parser (Operand Mode)) c = _
  rw [if_neg (by simp [hEnd]), Parser.orElse_of_nothing hAccumulator, if_pos hHash]

theorem immediate_of_parse {scope : Scope} {request : Request Mode} {c c' : Cursor} {e : Expr}
    (hParse : Expr.parse scope 0 c.next = .done e c') (hWord : Mode.immediateWord ∉ request.allowed) :
    immediate scope request c = .done (.withValue .immediate e (c.peek.span.through e.span)) c' := by
  unfold immediate
  rw [Parser.bind_of_done (show Parser.advance c = .done c.peek c.next from rfl),
    Parser.bind_of_done (Parser.orElse_of_done hParse)]
  simp only [hWord, false_and, if_false]
  rfl

/-- **The operand of LDQ with an immediate** is the expression. -/
theorem operands_of_immediate {w : Pending Mnemonic Feature} {x : Phrase} (hLoad : w.mnemonic = .quadAlu .lda)
    (h : Immediate w x) :
    ∃ first second stop, w.operands family = .ok (first, second, stop) ∧ first.mode = .immediate ∧
      x.folded (w.scope family) = some (first.value 0) ∧ stop.atStatementEnd = true := by
  obtain ⟨hash, rest, hHash, hCursor, hEnd⟩ := h.written
  obtain ⟨e, hFolded⟩ := Phrase.exists_folded h.divides
  have hParse : Expr.parse (w.scope family) 0 ⟨x.tokens ++ rest, w.state.cursor.stop⟩ =
      .done e ⟨rest, w.state.cursor.stop⟩ :=
    Phrase.parse_of_folded h.grouped h.names hFolded (operator?_of_atStatementEnd hEnd)
  let c : Cursor := ⟨hash :: (x.tokens ++ rest), w.state.cursor.stop⟩
  let request : Request Mode := ⟨(entry (.quadAlu .lda)).first, (entry (.quadAlu .lda)).immediate, w.implied⟩
  let o : Operand Mode := .withValue .immediate e (hash.span.through e.span)
  have hWord : Mode.immediateWord ∉ request.allowed := by
    show Mode.immediateWord ∉ (entry (.quadAlu .lda)).first
    decide
  have hGrammar : grammar (w.scope family) w.state.machine request c = .done o ⟨rest, w.state.cursor.stop⟩ :=
    (grammar_of_hash (c := c) hHash).trans (immediate_of_parse (c := c) hParse hWord)
  have hWide : ∀ pair ∈ family.narrowing, pair.1 ≠ o.mode := by
    show ∀ pair ∈ narrowing, pair.1 ≠ Mode.immediate
    decide
  have hAllowed : Mode.immediate ∈ (entry (.quadAlu .lda)).first := by decide
  have hResolve : family.resolve (w.scope family) w.state.machine request w.state.cursor =
      .done o ⟨rest, w.state.cursor.stop⟩ := by
    rw [hCursor]
    exact Operand.resolve_of_narrow (Operand.narrow_eq_pure_of_mode hWide) hGrammar hAllowed
  have hOperands : w.operands family =
      .ok (o, .bare .none w.state.cursor.peek.span, ⟨rest, w.state.cursor.stop⟩) := by
    unfold Pending.operands
    rw [hLoad]
    exact resolveOperands_of_resolve rfl hResolve
  exact ⟨o, _, _, hOperands, rfl, hFolded, hEnd⟩

-- --------
-- Encodings
-- --------

/-- What is written for a register behind A. -/
def registerItems (e : Expr) (amount : Value) (load copy : UInt8) : List Item :=
  if copies e amount then [.bytes [copy]] else [.bytes [load], .value (byteOf e amount) .byte]

/-- What is written for LDQ with an immediate. -/
def loadItems (e : Expr) : List Item :=
  [[.bytes [0xa9], .value (byteOf e 0) .byte], registerItems e (-8) 0xa2 0xaa, registerItems e (-16) 0xa0 0xa8,
    registerItems e (-24) 0xa3 0x4b].flatten

theorem loadItems_eq (e : Expr) :
    loadItems e = .bytes [0xa9] :: .value (byteOf e 0) .byte :: (registerItems e (-8) 0xa2 0xaa ++
      (registerItems e (-16) 0xa0 0xa8 ++ (registerItems e (-24) 0xa3 0x4b ++ []))) := rfl

/-- The registers behind A, with their instructions and the opcodes of those. -/
inductive Loads : Register → Special → Implied → UInt8 → UInt8 → Prop
  | x : Loads .x .ldx .tax 0xa2 0xaa
  | y : Loads .y .ldy .tay 0xa0 0xa8
  | z : Loads .z .ldz .taz 0xa3 0x4b

/-- How a register behind A is loaded. -/
def registerPart (e : Expr) (span : Span) (amount : Value) (load : Special) (copy : Implied) : Part Mnemonic Mode :=
  if copies e amount then part (.implied copy) (.bare .none span) span
  else part (.special load) (.withValue .immediate (byteOf e amount) span) span

/-- The instructions that LDQ is expanded to, each with what is written for it. -/
def loadParts (e : Expr) (span : Span) : List (Part Mnemonic Mode × List Item) :=
  [(part (.alu .lda) (.withValue .immediate (byteOf e 0) span) span, [.bytes [0xa9], .value (byteOf e 0) .byte]),
   (registerPart e span (-8) .ldx .tax, registerItems e (-8) 0xa2 0xaa),
   (registerPart e span (-16) .ldy .tay, registerItems e (-16) 0xa0 0xa8),
   (registerPart e span (-24) .ldz .taz, registerItems e (-24) 0xa3 0x4b)]

theorem parts_loadQuad (o : Operand Mode) :
    (loadQuad o).parts = .check (o.value 0) (-0x80000000) 0xffffffff :: (loadParts (o.value 0) o.span).map Prod.fst := rfl

theorem flatMap_loadParts (e : Expr) (span : Span) : (loadParts e span).flatMap Prod.snd = loadItems e := rfl

theorem mem_registerItems {e y : Expr} {amount : Value} {load copy : UInt8} {width : Width}
    (h : Item.value y width ∈ registerItems e amount load copy) : y = byteOf e amount ∧ width = .byte := by
  unfold registerItems at h
  split at h
  · simp at h
  · simpa using h

/-- All values are bytes of the operand. -/
theorem mem_loadItems {e y : Expr} {width : Width} (h : Item.value y width ∈ loadItems e) :
    ∃ n amount, ByteShift n amount ∧ y = byteOf e amount ∧ width = .byte := by
  obtain ⟨items, hItems, hMem⟩ := List.mem_flatten.mp h
  simp only [List.mem_cons, List.not_mem_nil, or_false] at hItems
  rcases hItems with rfl | rfl | rfl | rfl
  · exact ⟨0, 0, .first, by simpa using hMem⟩
  · exact ⟨1, _, .second, mem_registerItems hMem⟩
  · exact ⟨2, _, .third, mem_registerItems hMem⟩
  · exact ⟨3, _, .fourth, mem_registerItems hMem⟩

/-- A part of an expansion is an instruction that puts out `items` wherever it stands. -/
def Puts (site : Site Feature) (part : Part Mnemonic Mode) (items : List Item) : Prop :=
  ∀ label s, encodePart family site label part s =
    .ok () { s with output := s.output.writeAll items, instructions := s.instructions + 1 }

/-- Such parts are put out one behind the other. -/
theorem forM_of_puts {site : Site Feature} (label : String) (parts : List (Part Mnemonic Mode × List Item))
    (h : ∀ q ∈ parts, Puts site q.1 q.2) (s : Encoder) :
    (parts.map Prod.fst).forM (encodePart family site label) s =
      .ok () { s with output := s.output.writeAll (parts.flatMap Prod.snd)
                      instructions := s.instructions + parts.length } := by
  induction parts generalizing s with
  | nil => rfl
  | cons q parts ih =>
    have hRest := ih (fun q' hMem => h q' (List.mem_cons_of_mem _ hMem))
    refine Action.forM_cons_eq_ok.mpr ⟨_, h q List.mem_cons_self label s, ?_⟩
    rw [hRest, List.flatMap_cons, Section.writeAll_append, List.length_cons, Nat.add_right_comm]
    rfl

section

variable {site : Site Feature} (hAll : ∀ f, f ∈ site.machine.features)

include hAll

theorem supports_of_all (required : Features) : site.machine.supports required = true :=
  FlagSet.includes_iff.mpr fun f _ => hAll f

theorem checkFeatures_of_all (m : Mnemonic) : checkFeatures family site m = .ok () := if_pos (supports_of_all hAll _)

theorem checkOperands_of_all {i : Instr} (hMode : i.first.mode ∈ (entry i.mnemonic).first) :
    checkOperands family site i = .ok () := by
  have hFirst : checkOperand family site i.mnemonic 0 (family.entry i.mnemonic).first i.first = .ok () := by
    unfold checkOperand
    rw [if_neg (not_not_intro (show i.first.mode ∈ (family.entry i.mnemonic).first from hMode))]
    exact if_pos (supports_of_all hAll _)
  unfold checkOperands
  dsimp only
  rw [hFirst, show (family.entry i.mnemonic).second = none from entry_second _]

theorem puts_native {m : Mnemonic} {o : Operand Mode} {span : Span} {items : List Item}
    (hMode : o.mode ∈ (entry m).first)
    (hNative : ∀ s, native (setting site s) ⟨m, o, .bare .none span⟩ = .ok items)
    (hFits : ∀ e w v, Item.value e w ∈ items → e.value? = some v → w.fits v = true) : Puts site (part m o span) items :=
  fun _ s => encodeNative_of_fits (checkFeatures_of_all hAll m) (checkOperands_of_all hAll hMode) (hNative s) hFits

theorem puts_lda (e : Expr) (span : Span) :
    Puts site (part (.alu .lda) (.withValue .immediate (byteOf e 0) span) span)
      [.bytes [0xa9], .value (byteOf e 0) .byte] := by
  have hMode : Mode.immediate ∈ (entry (.alu .lda)).first := by decide
  refine puts_native hAll hMode (fun _ => rfl) fun x w v hMem hValue => ?_
  obtain ⟨rfl, rfl⟩ : x = byteOf e 0 ∧ w = .byte := by simpa using hMem
  exact fits_byteOf .first hValue

theorem puts_register {n : Nat} {amount : Value} {r : Register} {load : Special} {copy : Implied}
    {opcode opcode' : UInt8} (h : ByteShift n amount) (hLoads : Loads r load copy opcode opcode') (e : Expr) (span : Span) :
    Puts site (registerPart e span amount load copy) (registerItems e amount opcode opcode') := by
  have hFits : ∀ x w v, Item.value x w ∈ registerItems e amount opcode opcode' → x.value? = some v →
      w.fits v = true := by
    intro x w v hMem hValue
    obtain ⟨rfl, rfl⟩ := mem_registerItems hMem
    exact fits_byteOf h hValue
  unfold registerPart
  by_cases hCopies : copies e amount = true
  · have hMode : Mode.none ∈ (entry (.implied copy)).first := by cases hLoads <;> decide
    rw [if_pos hCopies]
    refine puts_native hAll hMode (fun s => ?_) hFits
    unfold registerItems
    rw [if_pos hCopies]
    cases hLoads <;> rfl
  · have hMode : Mode.immediate ∈ (entry (.special load)).first := by cases hLoads <;> decide
    rw [if_neg hCopies]
    refine puts_native hAll hMode (fun s => ?_) hFits
    unfold registerItems
    rw [if_neg hCopies]
    cases hLoads <;> exact if_pos (supports_of_all hAll _)

theorem puts_loadParts (e : Expr) (span : Span) : ∀ q ∈ loadParts e span, Puts site q.1 q.2 := by
  simp only [loadParts, List.forall_mem_cons]
  exact ⟨puts_lda hAll e span, puts_register hAll .second .x e span, puts_register hAll .third .y e span,
    puts_register hAll .fourth .z e span, List.forall_mem_nil _⟩

end

section

variable {site : Site Feature} {a : Encoder} {o o₂ : Operand Mode} (hAll : ∀ f, f ∈ site.machine.features)
  (hSynthesis : site.machine.synthesis = true) (hMode : o.mode = .immediate)

include hAll hSynthesis hMode

/-- What is left of LDQ with an immediate when its operand has passed. -/
theorem finish_eq_parts :
    finish family site ⟨.quadAlu .lda, o, o₂⟩ a =
      (loadQuad o).parts.forM (encodePart family site "")
        { a with instructions := a.instructions + 1, synthesized := true } := by
  have hAllowed : o.mode ∈ (entry (.quadAlu .lda)).first := by
    rw [hMode]
    decide
  have hExpansion : family.expansion? (setting site a) ⟨.quadAlu .lda, o, o₂⟩ = some (loadQuad o) := by
    show some (if o.mode = .immediate then loadQuad o else _) = _
    rw [if_pos hMode]
  have hRequire (s : Encoder) : requireSynthesis family site (.quadAlu .lda) s = .ok () { s with synthesized := true } := by
    unfold requireSynthesis
    rw [if_pos hSynthesis]
    rfl
  rw [finish_of_expansion (checkOperands_of_all hAll hAllowed) hExpansion, writeExpansion_eq]
  exact Action.bind_of_ok (hRequire _) _

/-- **LDQ gets through** with a constant of 32 bits or one that is not known yet. -/
theorem finish_loadQuad (hRange : ∀ v, (o.value 0).value? = some v → IsQuad v) :
    finish family site ⟨.quadAlu .lda, o, o₂⟩ a = .ok ()
      { a with output := a.output.writeAll (loadItems (o.value 0))
               instructions := a.instructions + 5
               synthesized := true } := by
  have hCheck (s : Encoder) :
      encodePart family site "" (.check (o.value 0) (-0x80000000) 0xffffffff) s = .ok () s := by
    have hPass : (o.value 0).checkRange (-0x80000000) 0xffffffff = .ok (o.value 0) := by
      unfold Expr.checkRange
      cases hValue : (o.value 0).value? with
      | none => rfl
      | some v => exact if_pos (isQuad_iff.mp (hRange v hValue))
    show (discard (require _) : Encode Unit) s = _
    rw [hPass]
    rfl
  rw [finish_eq_parts hAll hSynthesis hMode, parts_loadQuad]
  refine Action.forM_cons_eq_ok.mpr ⟨_, hCheck _, ?_⟩
  rw [forM_of_puts "" _ (puts_loadParts hAll (o.value 0) o.span), flatMap_loadParts]
  rfl

/-- Other constants are refused before anything is written. -/
theorem finish_loadQuad_error {v : Value} (hValue : (o.value 0).value? = some v) (hRange : ¬ IsQuad v) :
    finish family site ⟨.quadAlu .lda, o, o₂⟩ a =
      .error (.valueOutOfRange v (-0x80000000) 0xffffffff (o.value 0).span)
        { a with instructions := a.instructions + 1, synthesized := true } := by
  have hFail : (o.value 0).checkRange (-0x80000000) 0xffffffff =
      .error (.valueOutOfRange v (-0x80000000) 0xffffffff (o.value 0).span) := by
    unfold Expr.checkRange
    rw [hValue]
    exact if_neg fun h => hRange (isQuad_iff.mpr h)
  rw [finish_eq_parts hAll hSynthesis hMode, parts_loadQuad]
  show ((discard (require _) : Encode Unit) >>= fun _ => _) _ = _
  rw [hFail]
  rfl

end

-- --------
-- Code
-- --------

/-- How a register behind A gets its byte. A value that is known is compared with the byte in A. -/
def registerOp (known : Bool) (v : Value) (r : Register) (n : Nat) : Op :=
  if known && quadByte v n == quadByte v 0 then .transfer r else .load r (quadByte v n)

/-- The instructions that load a 32-bit value. -/
def quadOps (known : Bool) (v : Value) : List Op :=
  [.load .a (quadByte v 0), registerOp known v .x 1, registerOp known v .y 2, registerOp known v .z 3]

/-- The state in which the registers hold the bytes of a 32-bit value. The flags are those of the last byte. -/
def State.withQuad (m : State) (v : Value) : State where
  a := quadByte v 0
  x := quadByte v 1
  y := quadByte v 2
  z := quadByte v 3
  flags := m.flags.after (quadByte v 3)

theorem exec_registerOp {m : State} {v : Value} (hLow : m.a = quadByte v 0) (known : Bool) (r : Register) (n : Nat) :
    m.exec (registerOp known v r n) = m.set r (quadByte v n) := by
  unfold registerOp
  split
  · next hSame =>
    obtain ⟨-, hSame⟩ := Bool.and_eq_true_iff.mp hSame
    rw [State.exec, hLow, eq_of_beq hSame]
  · rfl

/-- Whichever way they are loaded, the registers hold the value then. -/
theorem foldl_quadOps (known : Bool) (v : Value) (m : State) :
    (quadOps known v).foldl State.exec m = m.withQuad v := by
  let m₁ := m.set .a (quadByte v 0)
  let m₂ := m₁.set .x (quadByte v 1)
  let m₃ := m₂.set .y (quadByte v 2)
  have hX : m₁.exec (registerOp known v .x 1) = m₂ := exec_registerOp rfl known .x 1
  have hY : m₂.exec (registerOp known v .y 2) = m₃ := exec_registerOp rfl known .y 2
  have hZ : m₃.exec (registerOp known v .z 3) = m₃.set .z (quadByte v 3) := exec_registerOp rfl known .z 3
  show ((m₁.exec (registerOp known v .x 1)).exec (registerOp known v .y 2)).exec (registerOp known v .z 3) = _
  rw [hX, hY, hZ]
  rfl

section

variable {t : SymbolTable} {base v : Value} {e : Expr} {code : List UInt8} {items : List Item} {n : Nat}
  {amount : Value}

/-- A byte behind an opcode. -/
theorem linked_byteOf (h : ByteShift n amount) (hValue : t.evaluate base e = .ok v) {opcode : UInt8}
    (hLinked : Item.Linked t base (.bytes [opcode] :: .value (byteOf e amount) .byte :: items) code) :
    ∃ rest, code = opcode :: quadByte v n :: rest ∧ Item.Linked t base items rest := by
  cases hLinked with
  | bytes hLinked =>
    cases hLinked with
    | value hByte hFits hRest =>
      rw [evaluate_byteOf, hValue] at hByte
      obtain rfl := Except.ok.inj hByte
      exact ⟨_, by rw [h.encode v]; rfl, hRest⟩

theorem copies_eq (h : ByteShift n amount) (hValue : t.evaluate base e = .ok v) :
    copies e amount = (e.value?.isSome && quadByte v n == quadByte v 0) := by
  rw [Bool.eq_iff_iff, copies_iff h]
  cases hKnown : e.value? with
  | none => simp
  | some u =>
    have hSame : t.evaluate base e = .ok u := Expr.evaluate_of_value? hKnown
    obtain rfl := Except.ok.inj (hSame.symm.trans hValue)
    simp

theorem ops_of_registerItems {r : Register} {load : Special} {copy : Implied} {opcode opcode' : UInt8}
    (h : ByteShift n amount) (hLoads : Loads r load copy opcode opcode') (hValue : t.evaluate base e = .ok v)
    (hLinked : Item.Linked t base (registerItems e amount opcode opcode' ++ items) code) :
    ∃ rest, ops code = (ops rest).map (registerOp e.value?.isSome v r n :: ·) ∧ Item.Linked t base items rest := by
  unfold registerItems at hLinked
  unfold registerOp
  rw [copies_eq h hValue] at hLinked
  by_cases hCopies : (e.value?.isSome && quadByte v n == quadByte v 0) = true
  · rw [if_pos hCopies] at hLinked ⊢
    cases hLinked with
    | bytes hRest => exact ⟨_, ops_transfer (by cases hLoads <;> rfl) _, hRest⟩
  · rw [if_neg hCopies] at hLinked ⊢
    obtain ⟨rest, rfl, hRest⟩ := linked_byteOf h hValue hLinked
    exact ⟨rest, ops_load (by cases hLoads <;> rfl) (by cases hLoads <;> rfl) _ rest, hRest⟩

/-- The operand of code that was linked has a value. -/
theorem exists_value_of_linked (hLinked : Item.Linked t base (loadItems e) code) : ∃ v, t.evaluate base e = .ok v := by
  rw [loadItems_eq] at hLinked
  cases hLinked with
  | bytes hRest =>
    cases hRest with
    | value hByte =>
      rw [evaluate_byteOf] at hByte
      obtain ⟨v, hv, -⟩ := Action.map_eq_ok.mp hByte
      exact ⟨v, hv⟩

/-- **The code of LDQ with an immediate.** -/
theorem ops_of_linked (hValue : t.evaluate base e = .ok v) (hLinked : Item.Linked t base (loadItems e) code) :
    ops code = some (quadOps e.value?.isSome v) := by
  rw [loadItems_eq] at hLinked
  obtain ⟨code₁, rfl, hFirst⟩ := linked_byteOf .first hValue hLinked
  obtain ⟨code₂, hX, hSecond⟩ := ops_of_registerItems .second .x hValue hFirst
  obtain ⟨code₃, hY, hThird⟩ := ops_of_registerItems .third .y hValue hSecond
  obtain ⟨code₄, hZ, hFourth⟩ := ops_of_registerItems .fourth .z hValue hThird
  have hEnd : ops code₄ = some [] := by
    cases hFourth
    rfl
  have hA : ops (0xa9 :: quadByte v 0 :: code₁) = (ops code₁).map (.load .a (quadByte v 0) :: ·) := ops_load rfl rfl _ _
  rw [hA, hX, hY, hZ, hEnd]
  rfl

end

-- --------
-- Programs
-- --------

theorem mem_features_of_cpu? {features : Features} (h : cpu? "45gs02" = some features) (f : Feature) : f ∈ features := by
  have hLower : Text.lower "45gs02" = "45gs02" := by decide +kernel
  unfold cpu? at h
  rw [hLower] at h
  cases h
  cases f <;> decide

section

variable {machine : Machine Feature} {policy : Policy} {source : String} {s : Assembly Feature}
  {w : Pending Mnemonic Feature} {x : Phrase} {p : Program} {first second : Operand Mode} {c : Cursor}

variable (hAll : ∀ f, f ∈ (w.site policy).machine.features) (hSynthesis : w.state.machine.synthesis = true)
  (hw : Assembly.pending? family s = some w) (hLoad : w.mnemonic = .quadAlu .lda)
  (hOperands : w.operands family = .ok (first, second, c)) (hMode : first.mode = .immediate)

include hAll hSynthesis hLoad hMode

theorem isQuad_of_finish {e : Encoder} {v : Value}
    (hFinish : finish family (w.site policy) ⟨w.mnemonic, first, second⟩ w.encoder = .ok () e)
    (hValue : (first.value 0).value? = some v) : IsQuad v := by
  refine Classical.byContradiction fun hRange => ?_
  rw [hLoad, finish_loadQuad_error hAll hSynthesis hMode hValue hRange] at hFinish
  cases hFinish

/-- What the encoder has done if it got through. -/
theorem eq_of_finish {e : Encoder}
    (hFinish : finish family (w.site policy) ⟨w.mnemonic, first, second⟩ w.encoder = .ok () e) :
    e = { w.encoder with output := w.encoder.output.writeAll (loadItems (first.value 0))
                         instructions := 5
                         synthesized := true } := by
  have hRange (v : Value) : (first.value 0).value? = some v → IsQuad v :=
    isQuad_of_finish hAll hSynthesis hLoad hMode hFinish
  rw [hLoad, finish_loadQuad hAll hSynthesis hMode hRange] at hFinish
  exact (EStateM.Result.ok.inj hFinish).2.symm

theorem writes_of_finish {e : Encoder}
    (hFinish : finish family (w.site policy) ⟨w.mnemonic, first, second⟩ w.encoder = .ok () e) :
    Writes (loadItems (first.value 0)) w.encoder e := by
  obtain rfl := eq_of_finish hAll hSynthesis hLoad hMode hFinish
  refine ⟨rfl, fun y width v hMem hValue => ?_⟩
  obtain ⟨n, amount, hByte, rfl, rfl⟩ := mem_loadItems hMem
  exact fits_byteOf hByte hValue

include hw hOperands

/-- Which of them get through. -/
theorem accepts_quad_iff (hEnd : c.atStatementEnd = true)
    (hLabel : ∀ label span, s.cursor.label? = some (label, span) → s.symbols.find? label = none) :
    (∃ s', Assembly.wholeStatement (family.job policy source) s = .ok () s') ↔
      (∀ v, (first.value 0).value? = some v → IsQuad v) ∧
        policy.denies (.synthesized (family.display w.mnemonic) 4 w.place) = false := by
  have hFeatures : checkFeatures family (w.site policy) w.mnemonic = .ok () := checkFeatures_of_all hAll _
  rw [Assembly.accepts_iff hw hLabel hFeatures hOperands hEnd]
  constructor
  · rintro ⟨e, hFinish, hReport⟩
    obtain rfl := eq_of_finish hAll hSynthesis hLoad hMode hFinish
    exact ⟨fun v => isQuad_of_finish hAll hSynthesis hLoad hMode hFinish, hReport rfl⟩
  · rintro ⟨hRange, hDenies⟩
    have hFinish : finish family (w.site policy) ⟨.quadAlu .lda, first, second⟩ w.encoder = _ :=
      finish_loadQuad hAll hSynthesis hMode hRange
    rw [← hLoad] at hFinish
    exact ⟨_, hFinish, fun _ => hDenies⟩

/-- Those that are refused leave nothing but their error. -/
theorem rejects_quad {v : Value} (hValue : (first.value 0).value? = some v) (hRange : ¬ IsQuad v)
    (hLabel : ∀ label span, s.cursor.label? = some (label, span) → s.symbols.find? label = none) :
    (Assembly.statement (family.job policy source) s).regions = s.regions ∧
      (Assembly.statement (family.job policy source) s).errors =
        s.errors ++ [.valueOutOfRange v (-0x80000000) 0xffffffff (first.value 0).span] := by
  have hFeatures : checkFeatures family (w.site policy) w.mnemonic = .ok () := checkFeatures_of_all hAll _
  have hFinish : finish family (w.site policy) ⟨.quadAlu .lda, first, second⟩ w.encoder = _ :=
    finish_loadQuad_error hAll hSynthesis hMode hValue hRange
  rw [← hLoad] at hFinish
  have hRun : Assembly.wholeStatement (family.job policy source) s = .error _ _ :=
    Assembly.wholeStatement_of_finish_error hw hLabel hFeatures hOperands hFinish
  obtain ⟨name, hName, -⟩ := Assembly.cursor_of_pending? hw
  constructor
  · rcases Assembly.regions_of_error hRun with hSame | ⟨hAt, -⟩
    · exact hSame
    · simp [Assembly.atOrigin, Cursor.isAt, hName, Lexeme.kind] at hAt
  · obtain ⟨earlier, current, hStatement⟩ := Assembly.statement_of_error hRun
    rw [hStatement]

variable (hs : s ∈ family.states machine policy source)
  (hAssembled : (family.assemble machine policy source).result = .ok p)

include hs hAssembled

/-- The expression has the same value whether it is read before or after the program is known. -/
theorem evaluate_operand (hFolded : x.folded (w.scope family) = some (first.value 0)) (base : Value) :
    p.symbols.evaluate base (first.value 0) = p.symbols.evaluate base (x.tree (w.scope family).counter) := by
  obtain ⟨e, hFinish⟩ := Family.exists_finish_of_operands hAssembled hs hw hOperands
  have hSymbols := Family.symbols_of_finish hAssembled hs hw hOperands hFinish
  obtain rfl := eq_of_finish hAll hSynthesis hLoad hMode hFinish
  exact (Phrase.stands_folded hFolded).evaluate base _ (SymbolTable.agrees_valueOf hSymbols base)

/-- The linker gets through the code of LDQ if it finds a value. -/
theorem fills_quad :
    ∃ entry r, p.listing[s.listing.length]? = some entry ∧ p.regions[entry.region]? = some r ∧
      ∀ base, r.output.FillsBetween p.symbols base entry.offset (entry.offset + entry.length) ↔
        ∃ v, p.symbols.evaluate base (first.value 0) = .ok v := by
  obtain ⟨e, hFinish⟩ := Family.exists_finish_of_operands hAssembled hs hw hOperands
  have hWrites := writes_of_finish hAll hSynthesis hLoad hMode hFinish
  obtain ⟨entry, r, hEntry, hr, hFills⟩ := Family.fills_instruction hAssembled hs hw hOperands hFinish hWrites
  refine ⟨entry, r, hEntry, hr, fun base => (hFills base).trans ?_⟩
  constructor
  · intro h
    obtain ⟨u, hu, -⟩ := h (byteOf (first.value 0) 0) .byte (by rw [loadItems_eq]; simp)
    rw [evaluate_byteOf] at hu
    obtain ⟨v, hv, -⟩ := Action.map_eq_ok.mp hu
    exact ⟨v, hv⟩
  · rintro ⟨v, hv⟩ y width hMem
    obtain ⟨n, amount, hByte, rfl, rfl⟩ := mem_loadItems hMem
    refine ⟨_, ?_, hByte.fits v⟩
    rw [evaluate_byteOf, hv]
    rfl

/-- The code of LDQ in a program that is linked. -/
theorem ops_of_quad {base : Value} {blocks : List Block} (hLinked : p.linkSections base = .ok blocks) :
    ∃ i start code v, family.Emits p blocks s w i start code ∧
      p.symbols.evaluate base (first.value 0) = .ok v ∧
      ops code = some (quadOps (first.value 0).value?.isSome v) := by
  obtain ⟨i, start, code, e, hEmits, hFinish, hPlaced⟩ := Family.emitted_instruction hAssembled hLinked hs hw
  obtain ⟨c', hOperands', -⟩ := hEmits.operands
  obtain ⟨rfl, rfl, rfl⟩ : i.first = first ∧ i.second = second ∧ c' = c := by
    simpa using hOperands'.symm.trans hOperands
  have hInstruction : i = ⟨w.mnemonic, i.first, i.second⟩ := by rw [← hEmits.mnemonic]
  rw [hInstruction] at hFinish
  have hItems := hPlaced.linked _ (writes_of_finish hAll hSynthesis hLoad hMode hFinish)
  obtain ⟨v, hv⟩ := exists_value_of_linked hItems
  exact ⟨i, start, code, v, hEmits, hv, ops_of_linked hv hItems⟩

end

/-- **LDQ with an immediate loads the bytes of its value.** On the 45GS02, with synthesis on, it gets through with
constants of 32 bits and with expressions that are not known yet; other constants are refused, and nothing is put out
for them. The linker needs no more than a value. From every state, the code leaves the bytes of the value in A, X, Y and
Z. A constant is loaded with a transfer for every byte that is the one in A, and all else with four loads. -/
theorem quad_immediate_loads_bytes {machine : Machine Feature} {policy : Policy} {source : String} {s : Assembly Feature}
    {w : Pending Mnemonic Feature} {x : Phrase} (hCpu : cpu? "45gs02" = some w.state.machine.features)
    (hSynthesis : w.state.machine.synthesis = true) (hs : s ∈ family.states machine policy source)
    (hw : Assembly.pending? family s = some w) (hLoad : w.mnemonic = .quadAlu .lda)
    (hLabel : ∀ label span, s.cursor.label? = some (label, span) → s.symbols.find? label = none)
    (hImmediate : Immediate w x) :
    ((∃ s', Assembly.wholeStatement (family.job policy source) s = .ok () s') ↔
      (∀ v, x.constant? (w.scope family) = some v → IsQuad v) ∧
        policy.denies (.synthesized (family.display w.mnemonic) 4 w.place) = false) ∧
    (∀ v, x.constant? (w.scope family) = some v → ¬ IsQuad v →
      (Assembly.statement (family.job policy source) s).regions = s.regions ∧
        ∃ span, (Assembly.statement (family.job policy source) s).errors =
          s.errors ++ [.valueOutOfRange v (-0x80000000) 0xffffffff span]) ∧
    ∀ p, (family.assemble machine policy source).result = .ok p →
      (∃ entry r, p.listing[s.listing.length]? = some entry ∧ p.regions[entry.region]? = some r ∧
        ∀ base, r.output.FillsBetween p.symbols base entry.offset (entry.offset + entry.length) ↔
          ∃ v, p.symbols.evaluate base (x.tree (w.scope family).counter) = .ok v) ∧
      ∀ base blocks, p.linkSections base = .ok blocks →
        ∃ i start code v, family.Emits p blocks s w i start code ∧
          p.symbols.evaluate base (x.tree (w.scope family).counter) = .ok v ∧
          (∀ u, x.constant? (w.scope family) = some u → u = v) ∧
          ops code = some (quadOps (x.constant? (w.scope family)).isSome v) ∧
          ∀ m, run code m = some (m.withQuad v) := by
  obtain ⟨first, second, c, hOperands, hMode, hFolded, hEnd⟩ := operands_of_immediate hLoad hImmediate
  have hAll := mem_features_of_cpu? hCpu
  rw [← Phrase.value?_folded hFolded]
  refine ⟨accepts_quad_iff hAll hSynthesis hw hLoad hOperands hMode hEnd hLabel, fun v hValue hRange => ?_,
    fun p hAssembled => ?_⟩
  · obtain ⟨hRegions, hErrors⟩ := rejects_quad hAll hSynthesis hw hLoad hOperands hMode hValue hRange hLabel
    exact ⟨hRegions, _, hErrors⟩
  · have hSame := evaluate_operand hAll hSynthesis hw hLoad hOperands hMode hs hAssembled hFolded
    simp only [← hSame]
    refine ⟨fills_quad hAll hSynthesis hw hLoad hOperands hMode hs hAssembled, fun base blocks hLinked => ?_⟩
    obtain ⟨i, start, code, v, hEmits, hValue, hOps⟩ :=
      ops_of_quad hAll hSynthesis hw hLoad hOperands hMode hs hAssembled hLinked
    refine ⟨i, start, code, v, hEmits, hValue, fun u hConstant => ?_, hOps, fun m => ?_⟩
    · exact Except.ok.inj ((Expr.evaluate_of_value? hConstant).symm.trans hValue)
    · rw [run_of_ops hOps, foldl_quadOps]

set_option maxRecDepth 10000 in
/-- A negative value that is defined behind the load. -/
theorem quad_immediate_loads_bytes_negative :
    ∃ p blocks s w i start code,
      (family.assemble { features := .full } {} "ldq #n\nn=-2\n").result = .ok p ∧
      p.linkSections 0x1000 = .ok blocks ∧
      s ∈ family.states { features := .full } {} "ldq #n\nn=-2\n" ∧
      Assembly.pending? family s = some w ∧ w.mnemonic = .quadAlu .lda ∧
      cpu? "45gs02" = some w.state.machine.features ∧ w.state.machine.synthesis = true ∧
      Immediate w (.symbol "n" ⟨5, 1⟩) ∧
      (∃ s', Assembly.wholeStatement (family.job {} "ldq #n\nn=-2\n") s = .ok () s') ∧
      family.Emits p blocks s w i start code ∧
      ops code = some [.load .a 0xfe, .load .x 0xff, .load .y 0xff, .load .z 0xff] ∧
      ∀ m, run code m = some ⟨0xfe, 0xff, 0xff, 0xff, m.flags.after 0xff⟩ := by
  have hLinks : ((family.assemble { features := .full } {} "ldq #n\nn=-2\n").result.toOption.any
      fun p => (p.linkSections 0x1000).toOption.isSome) = true := by decide +kernel
  have hValue : ((family.assemble { features := .full } {} "ldq #n\nn=-2\n").result.toOption.any
      fun p => decide ((p.symbols.evaluate 0x1000 (.symbol "n" ⟨5, 1⟩)).toOption = some (-2))) = true := by
    decide +kernel
  have hStates : ((family.states { features := .full } {} "ldq #n\nn=-2\n").any fun s =>
      (Assembly.pending? family s).any fun w =>
        w.mnemonic == .quadAlu .lda && decide (w.state.machine.features = .full) && w.state.machine.synthesis &&
        s.cursor.label?.isNone && w.state.cursor.rest == ⟨.mark .hash, ⟨4, 1⟩⟩ :: ((Phrase.symbol "n" ⟨5, 1⟩).tokens ++
          [⟨.newline, ⟨6, 1⟩⟩, ⟨.identifier "n", ⟨7, 1⟩⟩, ⟨.mark .equals, ⟨8, 1⟩⟩, ⟨.mark .minus, ⟨9, 1⟩⟩,
            ⟨.number 2, ⟨10, 1⟩⟩, ⟨.newline, ⟨11, 1⟩⟩]) &&
        (Phrase.constant? (w.scope family) (.symbol "n" ⟨5, 1⟩)).isNone) = true := by
    decide +kernel
  obtain ⟨p, hp, hSome⟩ := (Option.any_eq_true _ _).mp hLinks
  obtain ⟨blocks, hBlocks⟩ := Option.isSome_iff_exists.mp hSome
  obtain ⟨s, hs, hAny⟩ := List.any_eq_true.mp hStates
  obtain ⟨w, hw, hCheck⟩ := (Option.any_eq_true _ _).mp hAny
  simp only [Bool.and_eq_true, beq_iff_eq, decide_eq_true_eq, Option.isNone_iff_eq_none] at hCheck
  obtain ⟨⟨⟨⟨⟨hLoad, hFeatures⟩, hSynthesis⟩, hLabel⟩, hRest⟩, hNone⟩ := hCheck
  have hAssembled := Action.ok_of_toOption hp
  have hLinked := Action.ok_of_toOption hBlocks
  rw [hAssembled] at hValue
  have hValue : p.symbols.evaluate 0x1000 (.symbol "n" ⟨5, 1⟩) = .ok (-2) :=
    Action.ok_of_toOption (of_decide_eq_true hValue)
  have hCpu : cpu? "45gs02" = some w.state.machine.features := by
    rw [hFeatures]
    decide +kernel
  have hImmediate : Immediate w (.symbol "n" ⟨5, 1⟩) := by
    refine ⟨⟨_, _, rfl, congrArg (Cursor.mk · w.state.cursor.stop) hRest, rfl⟩, rfl, ?_, rfl⟩
    intro name hName
    obtain rfl := List.mem_singleton.mp hName
    decide +kernel
  obtain ⟨hAccepts, -, hCode⟩ :=
    quad_immediate_loads_bytes hCpu hSynthesis hs hw hLoad (by simp [hLabel]) hImmediate
  obtain ⟨-, hCode⟩ := hCode p hAssembled
  obtain ⟨i, start, code, v, hEmits, hOperand, -, hOps, hRun⟩ := hCode 0x1000 blocks hLinked
  obtain rfl := Except.ok.inj (hOperand.symm.trans hValue)
  rw [hNone] at hOps
  exact ⟨p, blocks, s, w, i, start, code, hAssembled, hLinked, hs, hw, hLoad, hCpu, hSynthesis, hImmediate,
    hAccepts.mpr ⟨by simp [hNone], rfl⟩, hEmits, hOps, hRun⟩

end CrossAsm.Mos65
