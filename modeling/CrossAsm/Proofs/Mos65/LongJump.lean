import CrossAsm.Proofs.Assembly.Fresh
import CrossAsm.Proofs.Expr.Grammar
import CrossAsm.Proofs.Mos65.Control

/-!
# CrossAsm — how far conditional jumps reach

A conditional jump is a branch over an absolute jump, which reaches every address. On a CPU with 16-bit branches
it is one of them instead, and its displacement does not wrap around: from an address in the lowest 32 KiB it does
not get to the highest addresses, nor back.

* `ReachesLong` — what a 16-bit branch reaches.
* `operands_of_jumpsTo` — how the operand of a conditional jump to a known address is read.
* `finish_jump`, `finish_detour` — when the encoder gets through, on either kind of CPU.
* `fills_jump_iff`, `fills_detour` — when the linker does.
-/

namespace CrossAsm.Mos65

open Encoder

-- --------
-- Distances
-- --------

/-- A 16-bit branch at `address` gets to `target`: the displacement is counted from behind the instruction. -/
def ReachesLong (address target : Value) : Prop :=
  -0x8000 ≤ target.toInt - (address.toInt + 3) ∧ target.toInt - (address.toInt + 3) ≤ 0x7fff

/-- A 16-bit address. -/
def IsAddress (v : Value) : Prop := 0 ≤ v ∧ v ≤ 0xffff

instance (address target : Value) : Decidable (ReachesLong address target) :=
  inferInstanceAs (Decidable (_ ∧ _))

instance (v : Value) : Decidable (IsAddress v) := inferInstanceAs (Decidable (_ ∧ _))

section

variable {address target : Value}

theorem IsAddress.toInt (h : IsAddress target) : 0 ≤ target.toInt ∧ target.toInt ≤ 0xffff :=
  ⟨Int64.le_iff_toInt_le.mp h.1, Int64.le_iff_toInt_le.mp h.2⟩

theorem IsAddress.fits_word (h : IsAddress target) : Width.word.fits target = true := by
  obtain ⟨hLow, hHigh⟩ := h.toInt
  exact Width.fits_word_iff.mpr ⟨by omega, hHigh⟩

/-- The distance of two addresses does not wrap around. -/
theorem fits_distance_iff (hAddress : IsAddress address) (hTarget : IsAddress target) :
    Width.signedWord.fits (target - (address + 3)) = true ↔ ReachesLong address target := by
  obtain ⟨hLow, hHigh⟩ := hAddress.toInt
  have hThree : (3 : Value).toInt = 3 := rfl
  have hBehind : (address + 3).toInt = address.toInt + 3 := by
    rw [Value.toInt_add_of_lt (by omega) (by omega), hThree]
  have hNonneg : 0 ≤ address + 3 := by
    rw [Int64.le_iff_toInt_le, hBehind]
    exact Int.add_nonneg hLow (by decide)
  rw [Width.fits_signedWord_iff, Value.toInt_sub_of_nonneg hNonneg hTarget.1, hBehind]
  exact Iff.rfl

end

-- --------
-- Operands
-- --------

/-- The operand of an instruction is the expression `x`, with or without the mark of a 16-bit address, and nothing
stands behind it. The value is known to be `target`. -/
structure JumpsTo (w : Pending Mnemonic Feature) (x : Phrase) (target : Value) : Prop where
  written : ∃ mark rest, mark ≠ .narrow ∧
    Marked w.state.cursor mark ⟨x.tokens ++ rest, w.state.cursor.stop⟩ ∧
    Cursor.atStatementEnd ⟨rest, w.state.cursor.stop⟩ = true
  grouped : x.fits 0 = true
  names   : ∀ name ∈ x.names, isReserved name = false
  known   : x.constant? (w.scope family) = some target

theorem operator?_of_atStatementEnd {c : Cursor} (h : c.atStatementEnd = true) : c.operator? = none := by
  unfold Cursor.atStatementEnd at h
  unfold Cursor.operator?
  cases hLexeme : c.peek.lexeme with
  | mark k => simp [hLexeme, Lexeme.endsStatement] at h
  | _ => rfl

theorem absolute_mem_jump (c : Condition) : Mode.absolute ∈ (entry (.jump c)).first := by
  cases c <;> decide

/-- **The operand of a jump to a known address** is that address. -/
theorem operands_of_jumpsTo {w : Pending Mnemonic Feature} {c : Condition} {x : Phrase} {target : Value}
    (hJump : w.mnemonic = .jump c) (h : JumpsTo w x target) :
    ∃ first second stop, w.operands family = .ok (first, second, stop) ∧ first.mode = .absolute ∧
      (first.value 0).value? = some target ∧ stop.atStatementEnd = true := by
  obtain ⟨mark, rest, hWide, hMark, hEnd⟩ := h.written
  obtain ⟨e, hParse, hValue⟩ := Phrase.parse_of_constant? h.grouped h.names h.known
    (operator?_of_atStatementEnd hEnd)
  have hDirect : (entry (.jump c)).first.meets parenthesized = false := (plain_of_isTransfer rfl).1
  have hGrammar : grammar (w.scope family) w.state.machine
      ⟨(entry (.jump c)).first, (entry (.jump c)).immediate, w.implied⟩ w.state.cursor =
        plain (w.scope family) (entry (.jump c)).first w.state.cursor :=
    grammar_of_marked rfl nofun hMark hParse (by simp [hDirect])
  have hTarget : (entry (.jump c)).first.meets {.relative, .relativeLong} = false := rfl
  obtain ⟨span, hPlain⟩ := plain_of_marked hTarget hMark hParse (index_of_end hEnd)
  have hMatched : ∃ o, grammar (w.scope family) w.state.machine
      ⟨(entry (.jump c)).first, (entry (.jump c)).immediate, w.implied⟩ w.state.cursor =
        .done o ⟨rest, w.state.cursor.stop⟩ ∧ o.mode = .absolute ∧ o.value 0 = e := by
    rw [hGrammar, hPlain]
    cases mark with
    | unmarked => exact ⟨_, rfl, rfl, rfl⟩
    | wide => exact ⟨_, rfl, rfl, rfl⟩
    | narrow => exact absurd rfl hWide
  obtain ⟨o, hDone, hMode, rfl⟩ := hMatched
  have hAllowed : o.mode ∈ (entry (.jump c)).first := by
    rw [hMode]
    exact absolute_mem_jump c
  have hResolve : family.resolve (w.scope family) w.state.machine
      ⟨(entry (.jump c)).first, (entry (.jump c)).immediate, w.implied⟩ w.state.cursor =
        .done o ⟨rest, w.state.cursor.stop⟩ :=
    Operand.resolve_of_grammar (not_mem_of_isAimed rfl).1 hDone hAllowed
  have hOperands : w.operands family =
      .ok (o, .bare .none w.state.cursor.peek.span, ⟨rest, w.state.cursor.stop⟩) := by
    unfold Pending.operands
    rw [hJump]
    exact resolveOperands_of_resolve rfl hResolve
  exact ⟨o, _, _, hOperands, hMode, hValue, hEnd⟩

-- --------
-- Checks
-- --------

section

variable {site : Site Feature} {a e : Encoder} {c : Condition} {o o₂ : Operand Mode}

theorem supports_of_mem {machine : Machine Feature} {f : Feature} (h : f ∈ machine.features) :
    machine.supports {f} = true := by
  refine FlagSet.includes_iff.mpr fun g hg => ?_
  obtain rfl : g = f := of_decide_eq_true hg
  exact h

theorem checkFeatures_of_mem {m : Mnemonic} {f : Feature} (hRequires : (entry m).requires = {f})
    (h : f ∈ site.machine.features) : checkFeatures family site m = .ok () := by
  have hSupports : site.machine.supports (family.entry m).requires = true := by
    show site.machine.supports (entry m).requires = true
    rw [hRequires]
    exact supports_of_mem h
  exact if_pos hSupports

theorem checkOperands_of_mem {i : Instr} {f : Feature} (hMode : i.first.mode ∈ (entry i.mnemonic).first)
    (hRequires : modeRequires i.first.mode = {f}) (h : f ∈ site.machine.features) :
    checkOperands family site i = .ok () := by
  have hSupports : site.machine.supports (family.modeRequires i.first.mode) = true := by
    show site.machine.supports (modeRequires i.first.mode) = true
    rw [hRequires]
    exact supports_of_mem h
  have hFirst : checkOperand family site i.mnemonic 0 (family.entry i.mnemonic).first i.first = .ok () := by
    unfold checkOperand
    rw [if_neg (not_not_intro (show i.first.mode ∈ (family.entry i.mnemonic).first from hMode))]
    exact if_pos hSupports
  unfold checkOperands
  dsimp only
  rw [hFirst, show (family.entry i.mnemonic).second = none from entry_second _]

-- --------
-- Encodings
-- --------

theorem relative_mem_branch (c : Condition) : Mode.relative ∈ (entry (.branch c)).first := by
  cases c <;> decide

theorem relativeLong_mem_branch (c : Condition) : Mode.relativeLong ∈ (entry (.branch c)).first := by
  cases c <;> decide

theorem checkOperands_jump (hBase : .base ∈ site.machine.features) (hMode : o.mode = .absolute) :
    checkOperands family site ⟨.jump c, o, o₂⟩ = .ok () := by
  have hAllowed : o.mode ∈ (entry (.jump c)).first := by
    rw [hMode]
    exact absolute_mem_jump c
  have hRequires : modeRequires o.mode = {.base} := by
    rw [hMode]
    rfl
  exact checkOperands_of_mem hAllowed hRequires hBase

/-- What a 16-bit branch is written as. -/
def longItems (c : Condition) (target counter : Expr) : List Item :=
  [.bytes [c.opcode ||| 0x03], .value (target.relativeTo counter 3) .signedWord]

theorem mem_longItems {target counter e : Expr} {w : Width} (h : .value e w ∈ longItems c target counter) :
    e = target.relativeTo counter 3 ∧ w = .signedWord := by
  simpa [longItems] using h

variable (hBase : .base ∈ site.machine.features) (hMode : o.mode = .absolute)

include hBase hMode

/-- With 16-bit branches, the encoder gets through if the distance fits or is left to the linker. -/
theorem finish_jump (hLong : .ce02 ∈ site.machine.features)
    (hFits : ∀ v, ((o.value 0).relativeTo (a.output.positionExpr site.span) 3).value? = some v →
      Width.signedWord.fits v = true) :
    finish family site ⟨.jump c, o, o₂⟩ a = .ok ()
      { a with
        output := a.output.writeAll (longItems c (o.value 0) (a.output.positionExpr site.span))
        instructions := a.instructions + 2 } := by
  rw [finish_of_expansion (checkOperands_jump hBase hMode) (expansion?_long (supports_of_mem hLong)),
    writeExpansion_eq]
  refine Action.forM_cons_eq_ok.mpr ⟨_, ?_, rfl⟩
  refine encodeNative_of_fits (checkFeatures_of_mem rfl hBase)
    (checkOperands_of_mem (relativeLong_mem_branch c) rfl hLong) rfl ?_
  intro e w v hMem hValue
  obtain ⟨rfl, rfl⟩ := mem_longItems hMem
  exact hFits v hValue

omit hMode in
/-- A branch to a label that is not defined yet is left to the linker. -/
theorem encodable_skip (hShort : .ce02 ∉ site.machine.features) (c : Condition) (label : String)
    (place span : Span) :
    Encodable family site ⟨.branch c, .withValue .relative (.symbol label place) span, .bare .none span⟩ := by
  intro s
  obtain ⟨items, hNative⟩ : ∃ items, native (setting site s)
      ⟨.branch c, .withValue .relative (.symbol label place) span, .bare .none span⟩ = .ok items := ⟨_, rfl⟩
  refine ⟨_, encodeNative_of_fits (checkFeatures_of_mem rfl hBase)
    (checkOperands_of_mem (relative_mem_branch c) rfl hBase) hNative ?_⟩
  obtain rfl := native_branch hShort hNative
  intro e w v hMem hKnown
  obtain ⟨rfl, -⟩ : e = _ ∧ w = .signedByte := by simpa using hMem
  have hLate := Expr.value?_symbol_relativeTo label place (setting site s).counter 2
  cases hLate.symm.trans hKnown

omit hMode in
theorem encodable_jmp {e : Expr} {target : Value} (hValue : e.value? = some target)
    (hTarget : Width.word.fits target = true) (span : Span) :
    Encodable family site ⟨.special .jmp, .withValue .absolute e span, .bare .none span⟩ := by
  intro s
  have hNative : native (setting site s) ⟨.special .jmp, .withValue .absolute e span, .bare .none span⟩ =
      .ok [.bytes [0x4c], .value e .word] := if_pos (supports_of_mem hBase)
  have hMode : Mode.absolute ∈ (entry (.special .jmp)).first := by decide
  refine ⟨_, encodeNative_of_fits (checkFeatures_of_mem rfl hBase)
    (checkOperands_of_mem hMode rfl hBase) hNative ?_⟩
  intro e' w v hMem hKnown
  obtain ⟨rfl, rfl⟩ : e' = e ∧ w = .word := by simpa using hMem
  obtain rfl := Option.some.inj (hValue.symm.trans hKnown)
  exact hTarget

/-- Without them it gets through to every address. -/
theorem finish_detour {target : Value} (hShort : .ce02 ∉ site.machine.features)
    (hSynthesis : site.machine.synthesis = true) (hFresh : a.symbols.Fresh)
    (hValue : (o.value 0).value? = some target) (hTarget : Width.word.fits target = true) :
    ∃ e, finish family site ⟨.jump c, o, o₂⟩ a = .ok () e ∧ e.synthesized = true ∧
      e.instructions = a.instructions + 3 :=
  finish_of_detour (checkOperands_jump hBase hMode) (expansion?_detour rfl hShort) hSynthesis hFresh
    (encodable_skip hBase hShort _ _ _ _) (encodable_jmp hBase hValue hTarget _)

end

-- --------
-- Linking
-- --------

section

variable {site : Site Feature} {a e : Encoder} {c : Condition} {o o₂ : Operand Mode} {final : Section}
  {table : SymbolTable} {base target : Value}

/-- A distance from a position of the output. -/
theorem evaluate_distance {e : Expr} {v : Value} (output : Section) (span : Span)
    (h : table.evaluate base e = .ok v) (adjustment : Value) :
    table.evaluate base (e.relativeTo (output.positionExpr span) adjustment) =
      .ok (v - (output.origin.getD base + Value.ofNat output.size + adjustment)) := by
  have hDistance : table.evaluate base (e.relativeTo (output.positionExpr span) adjustment) =
      (table.evaluate base e).map (· - (output.origin.getD base + Value.ofNat output.size + adjustment)) :=
    Expr.evaluate_relativeTo (output.evaluate_positionExpr span base _) e adjustment
  rw [hDistance, h]
  rfl

/-- The fields of a 16-bit branch can be filled in if the branch reaches its target. -/
theorem fills_jump_iff (hLong : .ce02 ∈ site.machine.features)
    (hFinish : finish family site ⟨.jump c, o, o₂⟩ a = .ok () e) (hValue : (o.value 0).value? = some target)
    (hRange : IsAddress target) (hWell : a.output.WellFormed) (hMore : e.output.Extends final)
    (hAddress : IsAddress (a.output.origin.getD base + Value.ofNat a.output.size)) :
    final.FillsBetween table base a.output.size e.output.size ↔
      ReachesLong (a.output.origin.getD base + Value.ofNat a.output.size) target := by
  obtain ⟨items, ⟨front, rfl, -, hFront⟩, hWrites⟩ := writes_jump (supports_of_mem hLong) hFinish
  obtain rfl := hFront _ rfl
  rw [hWrites.output] at hMore ⊢
  have hDistance := evaluate_distance a.output site.span
    (Expr.evaluate_of_value? hValue : table.evaluate base (o.value 0) = .ok target) 3
  rw [Section.fillsBetween_iff hWell hWrites.fits hMore, ← fits_distance_iff hAddress hRange]
  constructor
  · intro hAll
    obtain ⟨v, hv, hFits⟩ := hAll _ _ (List.mem_append_right _ (List.mem_singleton_self _))
    obtain rfl := Except.ok.inj (hDistance.symm.trans hv)
    exact hFits
  · intro hFits e w hMem
    obtain ⟨rfl, rfl⟩ : e = _ ∧ w = (longForm (c.opcode + 3)).width := by simpa using hMem
    exact ⟨_, hDistance, hFits⟩

/-- Something is written for every conditional jump. -/
theorem size_lt_of_jump (hFinish : finish family site ⟨.jump c, o, o₂⟩ a = .ok () e) :
    a.output.size < e.output.size := by
  by_cases hLong : .ce02 ∈ site.machine.features
  · obtain ⟨items, hEncodes, hWrites⟩ := writes_jump (supports_of_mem hLong) hFinish
    rw [hEncodes.size_output hWrites]
    exact Nat.lt_add_of_pos_right (Nat.succ_pos _)
  · obtain ⟨at₁, at₂, items, items', -, hSkip, hJump, hWrites, -⟩ :=
      detour_of_finish hFinish (expansion?_detour rfl hLong)
    obtain rfl := native_branch hLong hSkip
    obtain rfl := native_jmp hJump
    rw [hWrites.output, Section.size_writeAll]
    exact Nat.lt_add_of_pos_right (Nat.succ_pos _)

/-- Those of a branch over a jump always can. -/
theorem fills_detour (base : Value) (hShort : .ce02 ∉ site.machine.features)
    (hFinish : finish family site ⟨.jump c, o, o₂⟩ a = .ok () e) (hValue : (o.value 0).value? = some target)
    (hRange : IsAddress target) (hWell : a.output.WellFormed) (hMore : e.output.Extends final)
    (hOrigin : e.output.origin = a.output.origin) (hSymbols : e.symbols.symbols <+: table.symbols) :
    final.FillsBetween table base a.output.size e.output.size := by
  obtain ⟨at₁, at₂, items, items', hOutput, hSkip, hJump, hWrites, hLabel⟩ :=
    detour_of_finish hFinish (expansion?_detour rfl hShort)
  obtain rfl := native_branch hShort hSkip
  obtain rfl := native_jmp hJump
  have hSize : e.output.size = a.output.size + 5 := by
    rw [hWrites.output, Section.size_writeAll]
    rfl
  have hBehind := SymbolTable.evaluate_of_position (SymbolTable.find?_mono hSymbols hLabel) base site.span
  have hDistance := evaluate_distance a.output site.span hBehind 2
  have hThree : e.output.origin.getD base + Value.ofNat e.output.size -
      (a.output.origin.getD base + Value.ofNat a.output.size + 2) = 3 := by
    have hBoth : Value.ofNat (a.output.size + 5) = Value.ofNat a.output.size + 5 := Int64.ofNat_add _ _
    rw [hOrigin, hSize, hBoth]
    grind
  rw [hWrites.output] at hMore ⊢
  rw [Section.fillsBetween_iff hWell hWrites.fits hMore]
  intro e' w hMem
  simp only [List.cons_append, List.nil_append, List.mem_cons, reduceCtorEq, Item.value.injEq,
    List.not_mem_nil, or_false, false_or] at hMem
  rcases hMem with ⟨rfl, rfl⟩ | ⟨rfl, rfl⟩
  · refine ⟨3, ?_, rfl⟩
    show table.evaluate base (Expr.relativeTo _ (at₁.output.positionExpr site.span) 2) = _
    rw [hOutput, hDistance, hThree]
  · exact ⟨target, Expr.evaluate_of_value? hValue, hRange.fits_word⟩

end

-- --------
-- Conditional jumps of a program
-- --------

theorem base_of_cpu? {name : String} {features : Features} (h : cpu? name = some features) :
    .base ∈ features := by
  unfold cpu? at h
  split at h
  all_goals cases h
  all_goals decide

/-- The distance is known where the region has an origin. -/
theorem value?_distance {e : Expr} {target : Value} (h : e.value? = some target) (output : Section)
    (span : Span) :
    (e.relativeTo (output.positionExpr span) 3).value? =
      output.origin.map fun _ => target - (output.position + 3) := by
  rw [Expr.value?_relativeTo h, Section.value?_positionExpr]
  cases hOrigin : output.origin with
  | none => rfl
  | some origin => simp [Section.position, hOrigin]

variable {machine : Machine Feature} {policy : Policy} {source : String} {s : Assembly Feature}
  {w : Pending Mnemonic Feature} {c : Condition} {x : Phrase} {target : Value} {p : Program}

section

variable (hs : s ∈ family.states machine policy source) (hw : Assembly.pending? family s = some w)
  (hJump : w.mnemonic = .jump c) (hTarget : JumpsTo w x target) (hRange : IsAddress target)

include hw hJump hTarget hRange

/-- Which conditional jumps get through. -/
theorem accepts_jump_iff (hBase : .base ∈ w.state.machine.features)
    (hSynthesis : w.state.machine.synthesis = true) (hFresh : w.state.symbols.Fresh)
    (hLabel : ∀ label span, s.cursor.label? = some (label, span) → s.symbols.find? label = none)
    (hAddress : s.current.output.origin.isSome → IsAddress s.current.output.position) :
    (∃ s', Assembly.wholeStatement (family.job policy source) s = .ok () s') ↔
      if .ce02 ∈ w.state.machine.features then
        s.current.output.origin.isSome → ReachesLong s.current.output.position target
      else policy.denies (.synthesized (family.display w.mnemonic) 2 w.place) = false := by
  obtain ⟨first, second, stop, hOperands, hMode, hValue, hEnd⟩ := operands_of_jumpsTo hJump hTarget
  have hFeatures : checkFeatures family (w.site policy) w.mnemonic = .ok () := by
    rw [hJump]
    exact checkFeatures_of_mem rfl hBase
  have hOutput : w.encoder.output = s.current.output := by
    obtain ⟨symbols, c', hState⟩ := Assembly.relabels_of_pending? hw
    show w.state.current.output = _
    rw [hState]
  have hDistance := value?_distance hValue w.encoder.output w.place
  rw [Assembly.accepts_iff hw hLabel hFeatures hOperands hEnd, hJump, ← hOutput]
  rw [← hOutput] at hAddress
  by_cases hLong : .ce02 ∈ w.state.machine.features
  · rw [if_pos hLong]
    constructor
    · rintro ⟨e, hFinish, -⟩ hOrigin
      obtain ⟨items, ⟨front, rfl, -, -⟩, hWrites⟩ := writes_jump (supports_of_mem hLong) hFinish
      obtain ⟨origin, hSome⟩ := Option.isSome_iff_exists.mp hOrigin
      rw [hSome] at hDistance
      have hFits := hWrites.fits _ _ _ (List.mem_append_right _ (List.mem_singleton_self _)) hDistance
      exact (fits_distance_iff (hAddress hOrigin) hRange).mp hFits
    · intro hReaches
      refine ⟨_, finish_jump hBase hMode hLong ?_, nofun⟩
      intro v hv
      obtain ⟨origin, hSome, rfl⟩ := Option.map_eq_some_iff.mp (hDistance.symm.trans hv)
      have hOrigin : w.encoder.output.origin.isSome := by simp [hSome]
      exact (fits_distance_iff (hAddress hOrigin) hRange).mpr (hReaches hOrigin)
  · rw [if_neg hLong]
    have hDetour : ∃ e, finish family (w.site policy) ⟨.jump c, first, second⟩ w.encoder = .ok () e ∧
        e.synthesized = true ∧ e.instructions = w.encoder.instructions + 3 :=
      finish_detour hBase hMode hLong hSynthesis hFresh hValue hRange.fits_word
    obtain ⟨e, hFinish, hFlag, hCount⟩ := hDetour
    constructor
    · rintro ⟨e', hFinish', hReport⟩
      obtain ⟨-, rfl⟩ := EStateM.Result.ok.inj (hFinish.symm.trans hFinish')
      have hDone := hReport hFlag
      rw [hCount] at hDone
      exact hDone
    · intro hDenies
      refine ⟨e, hFinish, fun _ => ?_⟩
      rw [hCount]
      exact hDenies

include hs in
/-- The listing leads to the fields of a conditional jump. -/
theorem linked_jump (hAssembled : (family.assemble machine policy source).result = .ok p) :
    ∃ entry r, p.listing[s.listing.length]? = some entry ∧ p.regions[entry.region]? = some r ∧
      ∀ base, IsAddress (r.load base + Value.ofNat entry.offset) →
        (r.output.FillsBetween p.symbols base entry.offset (entry.offset + entry.length) ↔
          (.ce02 ∈ w.state.machine.features →
            ReachesLong (r.load base + Value.ofNat entry.offset) target)) := by
  obtain ⟨first, second, stop, hOperands, hMode, hValue, -⟩ := operands_of_jumpsTo hJump hTarget
  obtain ⟨first', second', stop', e, r, hOperands', -, hFinish, hWell, hr, hMore, -⟩ :=
    Family.accepted_instruction hAssembled hs hw
  obtain ⟨rfl, rfl, rfl⟩ : first' = first ∧ second' = second ∧ stop' = stop := by
    simpa using hOperands'.symm.trans hOperands
  obtain ⟨entry, hEntry, hRegion, hOffset, hStop, hOrigin⟩ :=
    Family.located_instruction hAssembled hs hw hOperands hFinish hr
  have hSymbols := Family.symbols_of_finish hAssembled hs hw hOperands hFinish
  have hGrows : w.encoder.Grows e := (keeps_finish family _ _).of_ok hFinish
  refine ⟨entry, r, hEntry, hRegion ▸ hr, fun base hAddress => ?_⟩
  rw [hJump] at hFinish
  have hLoad : r.load base = w.encoder.output.origin.getD base := by
    have hPos := size_lt_of_jump hFinish
    unfold Region.load
    rw [hOrigin (by omega)]
  rw [hLoad, hOffset] at hAddress ⊢
  rw [← hOffset, hStop, hOffset]
  by_cases hLong : .ce02 ∈ w.state.machine.features
  · rw [fills_jump_iff hLong hFinish hValue hRange hWell hMore hAddress]
    exact ⟨fun hReaches _ => hReaches, fun hReaches => hReaches hLong⟩
  · refine iff_of_true ?_ fun h => absurd h hLong
    exact fills_detour base hLong hFinish hValue hRange hWell hMore hGrows.origin hSymbols

end

/-- **How far conditional jumps reach.** One to a constant address gets through on every CPU without 16-bit
branches. On the others it gets through, and can be linked, exactly if a 16-bit branch reaches the address. -/
theorem conditional_jump_reach {name : String} (hCpu : cpu? name = some w.state.machine.features)
    (hSynthesis : w.state.machine.synthesis = true) (hs : s ∈ family.states machine policy source)
    (hw : Assembly.pending? family s = some w) (hJump : w.mnemonic = .jump c)
    (hLabel : ∀ label span, s.cursor.label? = some (label, span) → s.symbols.find? label = none)
    (hTarget : JumpsTo w x target) (hRange : IsAddress target)
    (hAddress : s.current.output.origin.isSome → IsAddress s.current.output.position) :
    ((∃ s', Assembly.wholeStatement (family.job policy source) s = .ok () s') ↔
      if .ce02 ∈ w.state.machine.features then
        s.current.output.origin.isSome → ReachesLong s.current.output.position target
      else policy.denies (.synthesized (family.display w.mnemonic) 2 w.place) = false) ∧
    ∀ p, (family.assemble machine policy source).result = .ok p →
      ∃ entry r, p.listing[s.listing.length]? = some entry ∧ p.regions[entry.region]? = some r ∧
        ∀ base, IsAddress (r.load base + Value.ofNat entry.offset) →
          (r.output.FillsBetween p.symbols base entry.offset (entry.offset + entry.length) ↔
            (.ce02 ∈ w.state.machine.features →
              ReachesLong (r.load base + Value.ofNat entry.offset) target)) := by
  have hFresh := Family.fresh_of_pending? .mos65 hs hw
  refine ⟨?_, fun p hAssembled => linked_jump hs hw hJump hTarget hRange hAssembled⟩
  exact accepts_jump_iff hw hJump hTarget hRange (base_of_cpu? hCpu) hSynthesis hFresh hLabel hAddress

set_option maxRecDepth 10000 in
/-- A jump from the lowest address to the highest one gets through on the 6502, but not on the 65CE02. -/
theorem conditional_jump_reach_top :
    (∃ s ∈ family.states { features := {.base} } {} ".org 0\njeq $ffff\n",
      (Assembly.pending? family s).isSome ∧
        ∃ s', Assembly.wholeStatement (family.job {} ".org 0\njeq $ffff\n") s = .ok () s') ∧
    ∃ s ∈ family.states { features := {.base, .cmos, .rockwell, .ce02} } {} ".org 0\njeq $ffff\n",
      (Assembly.pending? family s).isSome ∧
        ¬ ∃ s', Assembly.wholeStatement (family.job {} ".org 0\njeq $ffff\n") s = .ok () s' := by
  have hReach {name : String} {features : Features} (hCpu : cpu? name = some features)
      (hStates : ((family.states { features } {} ".org 0\njeq $ffff\n").any fun s =>
        (Assembly.pending? family s).any fun w =>
          w.mnemonic == .jump .eq && decide (w.state.machine.features = features) &&
          w.state.machine.synthesis && s.cursor.label?.isNone &&
          w.state.cursor.rest == [⟨.number 0xffff, ⟨11, 5⟩⟩, ⟨.newline, ⟨16, 1⟩⟩] &&
          s.current.output.origin == some 0 && s.current.output.size == 0) = true) :
      ∃ s ∈ family.states { features } {} ".org 0\njeq $ffff\n", (Assembly.pending? family s).isSome ∧
        ((∃ s', Assembly.wholeStatement (family.job {} ".org 0\njeq $ffff\n") s = .ok () s') ↔
          .ce02 ∉ features) := by
    obtain ⟨s, hs, hAny⟩ := List.any_eq_true.mp hStates
    obtain ⟨w, hw, hCheck⟩ := (Option.any_eq_true _ _).mp hAny
    simp only [Bool.and_eq_true, beq_iff_eq, decide_eq_true_eq, Option.isNone_iff_eq_none] at hCheck
    obtain ⟨⟨⟨⟨⟨⟨hJump, hFeatures⟩, hSynthesis⟩, hLabel⟩, hRest⟩, hOrigin⟩, hSize⟩ := hCheck
    have hPosition : s.current.output.position = 0 := by
      rw [Section.position, hOrigin, hSize]
      rfl
    have hMarked : Marked w.state.cursor .unmarked w.state.cursor := by
      refine .unmarked ?_ ?_ ?_
      all_goals
        refine Cursor.eat?_mark_eq_none ?_
        simp [Cursor.peek, hRest]
    have hTarget : JumpsTo w (.number 0xffff ⟨11, 5⟩) 0xffff := by
      refine ⟨⟨.unmarked, [⟨.newline, ⟨16, 1⟩⟩], ?_, ?_, rfl⟩, rfl, fun _ h => absurd h List.not_mem_nil, rfl⟩
      · intro hMark
        cases hMark
      have hCursor : (⟨w.state.cursor.rest, w.state.cursor.stop⟩ : Cursor) = w.state.cursor := rfl
      rw [hRest] at hCursor
      exact hCursor.symm ▸ hMarked
    refine ⟨s, hs, by simp [hw], ?_⟩
    have hIff := (conditional_jump_reach (hFeatures ▸ hCpu) hSynthesis hs hw hJump (by simp [hLabel]) hTarget
      (by decide) (fun _ => by rw [hPosition]; decide)).1
    have hFar : ¬ ReachesLong 0 0xffff := by decide
    rw [hIff, hFeatures, hPosition, hOrigin]
    by_cases hLong : .ce02 ∈ features
    · simp [hLong, hFar]
    · simp [hLong, Policy.denies]
  obtain ⟨s, hs, hPending, hIff⟩ := hReach (by decide +kernel : cpu? "6502" = some {.base}) (by decide +kernel)
  obtain ⟨s', hs', hPending', hIff'⟩ := hReach
    (by decide +kernel : cpu? "65ce02" = some {.base, .cmos, .rockwell, .ce02}) (by decide +kernel)
  exact ⟨⟨s, hs, hPending, hIff.mpr (by decide)⟩, s', hs', hPending', fun h => absurd (hIff'.mp h) (by decide)⟩

set_option maxRecDepth 10000 in
/-- There is no such program for the 65CE02: the distance is out of the range of a 16-bit branch. -/
theorem conditional_jump_out_of_reach :
    ∃ features, cpu? "65ce02" = some features ∧
      ¬ ∃ p, (family.assemble { features } {} ".org 0\njeq $ffff\n").result = .ok p := by
  refine ⟨{.base, .cmos, .rockwell, .ce02}, by decide +kernel, ?_⟩
  rintro ⟨p, hp⟩
  have hNone : (family.assemble { features := {.base, .cmos, .rockwell, .ce02} } {}
      ".org 0\njeq $ffff\n").result.toOption.isNone = true := by decide +kernel
  rw [hp] at hNone
  cases hNone

end CrossAsm.Mos65
