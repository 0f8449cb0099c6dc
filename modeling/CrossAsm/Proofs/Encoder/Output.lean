import CrossAsm.Proofs.Encoder.Growth
import CrossAsm.Proofs.Section.Items

/-!
# CrossAsm — what an instruction writes

If the encoder gets through an instruction, the section afterwards is the section before with a list of
items appended: the native encoding, or the encodings of the parts of an expansion one behind the other.
-/

namespace CrossAsm.Encoder

variable {s s' : Encoder}

-- --------
-- Writing items
-- --------

theorem require_eq_ok {α : Type} {r : Except Diagnostic α} {a : α} :
    require r s = .ok a s' ↔ r = .ok a ∧ s = s' := by
  cases r with
  | ok b => simp [require, Action.pure_eq_ok]
  | error d => simp [require, Action.throw_ne_ok]

theorem report_eq_ok {policy : Policy} {d : Diagnostic} {u : Unit} {e e' : Encoder} (h : report policy d e = .ok u e') :
    ∃ new, policy.judge d = .ok new ∧ e' = { e with reported := e.reported ++ new } := by
  obtain ⟨new, e₁, hRequire, hModify⟩ := Action.bind_eq_ok.mp h
  obtain ⟨hJudge, rfl⟩ := require_eq_ok.mp hRequire
  exact ⟨new, hJudge, (Action.modify_eq_ok.mp hModify).symm⟩

/-- A label changes nothing but the symbols. -/
theorem bindLabel_eq_ok {label : String} {span : Span} {u : Unit} :
    bindLabel label span s = .ok u s' ↔
      ∃ symbols, s.symbols.define label (s.output.positionExpr span) span = .ok symbols ∧
        s' = { s with symbols } := by
  constructor
  · intro h
    obtain ⟨_, _, hGet, hRest⟩ := Action.bind_eq_ok.mp h
    obtain ⟨rfl, rfl⟩ := Action.get_eq_ok.mp hGet
    obtain ⟨symbols, s₁, hRequire, hSet⟩ := Action.bind_eq_ok.mp hRest
    obtain ⟨hDefine, rfl⟩ := require_eq_ok.mp hRequire
    exact ⟨symbols, hDefine, (Action.set_eq_ok.mp hSet).symm⟩
  · rintro ⟨symbols, hDefine, rfl⟩
    refine Action.bind_eq_ok.mpr ⟨s, s, rfl, Action.bind_eq_ok.mpr ⟨symbols, s, ?_, rfl⟩⟩
    exact require_eq_ok.mpr ⟨hDefine, rfl⟩

/-- A range check passes an expression on unchanged. -/
theorem eq_of_checkRange {e e' : Expr} {low high : Value} (h : e.checkRange low high = .ok e') :
    e' = e := by
  unfold Expr.checkRange at h
  split at h
  · split at h
    · exact (Except.ok.inj h).symm
    · cases h
  · exact (Except.ok.inj h).symm

/-- A known value has to be in the range. -/
theorem within_of_checkRange {e e' : Expr} {low high v : Value} (h : e.checkRange low high = .ok e')
    (hValue : e.value? = some v) : v.within low high = true := by
  simp only [Expr.checkRange, hValue] at h
  split at h
  · next hWithin => exact hWithin
  · cases h

/-- The items are appended one behind the other, and those with a known value have room for it. -/
structure Writes (items : List Item) (s s' : Encoder) : Prop where
  output : s'.output = s.output.writeAll items
  fits   : ∀ e w v, Item.value e w ∈ items → e.value? = some v → w.fits v = true

theorem writes_emitItem {item : Item} (h : emitItem item s = .ok () s') : Writes [item] s s' := by
  cases item with
  | bytes bytes =>
    refine ⟨?_, by simp⟩
    rw [← Action.modify_eq_ok.mp h]
    rfl
  | value e w =>
    obtain ⟨checked, s₁, hCheck, hEmit⟩ := Action.bind_eq_ok.mp h
    obtain ⟨hChecked, rfl⟩ := require_eq_ok.mp hCheck
    refine ⟨?_, ?_⟩
    · rw [← Action.modify_eq_ok.mp hEmit, eq_of_checkRange hChecked]
      rfl
    · intro e' w' v hMem hValue
      obtain ⟨rfl, rfl⟩ := Item.value.inj (List.mem_singleton.mp hMem)
      exact within_of_checkRange hChecked hValue

theorem writes_emitItems {items : List Item} (h : items.forM emitItem s = .ok () s') :
    Writes items s s' := by
  induction items generalizing s with
  | nil =>
    obtain ⟨-, rfl⟩ := Action.pure_eq_ok.mp h
    exact ⟨rfl, by simp⟩
  | cons item items ih =>
    obtain ⟨s₁, hItem, hItems⟩ := Action.forM_cons_eq_ok.mp h
    have hFirst := writes_emitItem hItem
    have hOthers := ih hItems
    refine ⟨?_, ?_⟩
    · rw [hOthers.output, hFirst.output]
      rfl
    · intro e w v hMem hValue
      rcases List.mem_cons.mp hMem with rfl | hMem
      · exact hFirst.fits e w v (List.mem_singleton_self _) hValue
      · exact hOthers.fits e w v hMem hValue

-- --------
-- Instructions
-- --------

variable {Mnemonic Mode Feature : Type} {F : Family Mnemonic Mode Feature} {site : Site Feature}
  {i : Instruction Mnemonic Mode}

theorem writes_writeNative (h : writeNative F site i s = .ok () s') :
    ∃ items, F.native (setting site s) i = .ok items ∧ Writes items s s' := by
  obtain ⟨_, _, hGet, hRest⟩ := Action.bind_eq_ok.mp h
  obtain ⟨rfl, rfl⟩ := Action.get_eq_ok.mp hGet
  obtain ⟨items, s₁, hRequire, hItems⟩ := Action.bind_eq_ok.mp hRest
  obtain ⟨hNative, rfl⟩ := require_eq_ok.mp hRequire
  exact ⟨items, hNative, writes_emitItems hItems⟩

variable [Flag Mode] [Flag Feature]

/-- A native part of an expansion is written like a native instruction. -/
theorem writes_encodeNative (h : encodeNative F site i s = .ok () s') :
    ∃ items, F.native (setting site s) i = .ok items ∧ Writes items s s' := by
  obtain ⟨⟨⟩, s₁, hFeatures, hRest⟩ := Action.bind_eq_ok.mp h
  obtain ⟨-, rfl⟩ := require_eq_ok.mp hFeatures
  obtain ⟨⟨⟩, s₂, hOperands, hRest⟩ := Action.bind_eq_ok.mp hRest
  obtain ⟨-, rfl⟩ := require_eq_ok.mp hOperands
  obtain ⟨⟨⟩, s₃, hCount, hRest⟩ := Action.bind_eq_ok.mp hRest
  obtain ⟨items, hNative, hOutput, hFits⟩ := writes_writeNative hRest
  rw [← Action.modify_eq_ok.mp hCount] at hNative hOutput
  exact ⟨items, hNative, hOutput, hFits⟩

/-- What a part of an expansion puts out under a setting. -/
def PartItems (F : Family Mnemonic Mode Feature) (setting : Setting Feature) :
    Part Mnemonic Mode → List Item → Prop
  | .bytes bytes, items => items = [.bytes bytes]
  | .native i, items => F.native setting i = .ok items
  | .check .., items | .label, items => items = []

theorem output_encodePart {label : String} {part : Part Mnemonic Mode}
    (h : encodePart F site label part s = .ok () s') :
    ∃ items, PartItems F (setting site s) part items ∧ s'.output = s.output.writeAll items := by
  cases part with
  | bytes bytes =>
    refine ⟨[.bytes bytes], rfl, ?_⟩
    rw [← Action.modify_eq_ok.mp h]
    rfl
  | native i =>
    obtain ⟨items, hNative, hWrites⟩ := writes_encodeNative h
    exact ⟨items, hNative, hWrites.output⟩
  | check e low high =>
    obtain ⟨checked, s₁, hCheck, hDone⟩ := Action.bind_eq_ok.mp h
    obtain ⟨-, rfl⟩ := require_eq_ok.mp hCheck
    obtain ⟨-, rfl⟩ := Action.pure_eq_ok.mp hDone
    exact ⟨[], rfl, rfl⟩
  | label =>
    obtain ⟨symbols, -, rfl⟩ := bindLabel_eq_ok.mp h
    exact ⟨[], rfl, rfl⟩

/-- The parts of an expansion are written where the instruction stands. The label they refer to is the next
one. -/
theorem parts_of_writeExpansion {m : Mnemonic} {x : Expansion Mnemonic Mode}
    (h : writeExpansion F site m x s = .ok () s') :
    ∃ label s₁, s₁.output = s.output ∧ (x.labelled = true → label = s.symbols.nextLabel) ∧
      x.parts.forM (encodePart F site label) s₁ = .ok () s' := by
  rw [writeExpansion_eq] at h
  obtain ⟨⟨⟩, s₁, hSynthesis, hRest⟩ := Action.bind_eq_ok.mp h
  obtain ⟨label, s₂, hLabel, hParts⟩ := Action.bind_eq_ok.mp hRest
  have hFirst : s₁.output = s.output ∧ s₁.symbols = s.symbols := by
    by_cases hFlag : x.synthesized = true
    · rw [if_pos hFlag] at hSynthesis
      unfold requireSynthesis at hSynthesis
      split at hSynthesis
      · obtain rfl := Action.modify_eq_ok.mp hSynthesis
        exact ⟨rfl, rfl⟩
      · exact absurd hSynthesis Action.throw_ne_ok
    · rw [if_neg hFlag] at hSynthesis
      obtain ⟨-, rfl⟩ := Action.pure_eq_ok.mp hSynthesis
      exact ⟨rfl, rfl⟩
  have hSecond : s₂.output = s₁.output ∧ (x.labelled = true → label = s₁.symbols.nextLabel) := by
    by_cases hFlag : x.labelled = true
    · rw [if_pos hFlag] at hLabel
      cases hLabel
      exact ⟨rfl, fun _ => rfl⟩
    · rw [if_neg hFlag] at hLabel
      obtain ⟨-, rfl⟩ := Action.pure_eq_ok.mp hLabel
      exact ⟨rfl, fun hTrue => absurd hTrue hFlag⟩
  refine ⟨label, s₂, hSecond.1.trans hFirst.1, ?_, hParts⟩
  rw [← hFirst.2]
  exact hSecond.2

/-- What an instruction comes down to once its operands are checked. Counting it changes nothing that its
encoding depends on. -/
theorem run_of_finish (h : finish F site i s = .ok () s') :
    checkOperands F site i = .ok () ∧ ∃ n,
      match F.expansion? (setting site s) i with
      | none => writeNative F site i { s with instructions := n } = .ok () s'
      | some x => writeExpansion F site i.mnemonic x { s with instructions := n } = .ok () s' := by
  obtain ⟨⟨⟩, s₁, hOperands, hRest⟩ := Action.bind_eq_ok.mp h
  obtain ⟨hCheck, rfl⟩ := require_eq_ok.mp hOperands
  obtain ⟨⟨⟩, s₂, hCount, hRest⟩ := Action.bind_eq_ok.mp hRest
  obtain ⟨_, _, hGet, hRest⟩ := Action.bind_eq_ok.mp hRest
  obtain ⟨rfl, rfl⟩ := Action.get_eq_ok.mp hGet
  obtain rfl := Action.modify_eq_ok.mp hCount
  refine ⟨hCheck, s.instructions + 1, ?_⟩
  have hSetting (n : Nat) : setting site { s with instructions := n } = setting site s := rfl
  rw [hSetting] at hRest
  cases hExpansion : F.expansion? (setting site s) i with
  | none =>
    rw [hExpansion] at hRest
    exact hRest
  | some x =>
    rw [hExpansion] at hRest
    exact hRest

/-- **What an instruction writes**: its native encoding, or the parts of its expansion one behind the
other. -/
theorem writes_finish (h : finish F site i s = .ok () s') :
    match F.expansion? (setting site s) i with
    | none => ∃ items, F.native (setting site s) i = .ok items ∧ Writes items s s'
    | some x => ∃ label s₁, s₁.output = s.output ∧
        x.parts.forM (encodePart F site label) s₁ = .ok () s' := by
  obtain ⟨-, n, hRun⟩ := run_of_finish h
  cases hExpansion : F.expansion? (setting site s) i with
  | none =>
    rw [hExpansion] at hRun
    obtain ⟨items, hNative, hOutput, hFits⟩ := writes_writeNative hRun
    exact ⟨items, hNative, hOutput, hFits⟩
  | some x =>
    rw [hExpansion] at hRun
    obtain ⟨label, s₁, hOutput, -, hParts⟩ := parts_of_writeExpansion hRun
    exact ⟨label, s₁, hOutput, hParts⟩

/-- The encoding of an instruction that is not expanded. -/
theorem native_of_finish (h : finish F site i s = .ok () s')
    (hNone : F.expansion? (setting site s) i = none) :
    ∃ items, F.native (setting site s) i = .ok items ∧ Writes items s s' := by
  have hWrites := writes_finish h
  rw [hNone] at hWrites
  exact hWrites

/-- The parts of an instruction that is expanded. -/
theorem parts_of_finish {x : Expansion Mnemonic Mode} (h : finish F site i s = .ok () s')
    (hExpansion : F.expansion? (setting site s) i = some x) :
    ∃ label s₁, s₁.output = s.output ∧ (x.labelled = true → label = s.symbols.nextLabel) ∧
      x.parts.forM (encodePart F site label) s₁ = .ok () s' := by
  obtain ⟨-, n, hRun⟩ := run_of_finish h
  rw [hExpansion] at hRun
  obtain ⟨label, s₁, hOutput, hLabel, hParts⟩ := parts_of_writeExpansion hRun
  exact ⟨label, s₁, hOutput, hLabel, hParts⟩

/-- The first operand of an instruction is of a mode that the instruction takes. -/
theorem mode_of_finish (h : finish F site i s = .ok () s') :
    i.first.mode ∈ (F.entry i.mnemonic).first := by
  obtain ⟨⟨⟩, s₁, hOperands, -⟩ := Action.bind_eq_ok.mp h
  obtain ⟨hCheck, -⟩ := require_eq_ok.mp hOperands
  refine Classical.byContradiction fun hMode => ?_
  simp [checkOperands, checkOperand, hMode] at hCheck

/-- The mode of the first operand needs its features. -/
theorem supports_of_finish (h : finish F site i s = .ok () s') :
    site.machine.supports (F.modeRequires i.first.mode) = true := by
  obtain ⟨hCheck, -⟩ := run_of_finish h
  refine Classical.byContradiction fun hSupports => ?_
  simp [checkOperands, checkOperand, mode_of_finish h, hSupports] at hCheck

/-- An instruction of the source needs its features. -/
theorem features_of_dispatch [DecidableEq Mode] {m : Mnemonic} {implied : Option Nat} {c c' : Cursor}
    (h : dispatch F site m implied c s = .ok c' s') : checkFeatures F site m = .ok () := by
  obtain ⟨⟨⟩, s₁, hFeatures, -⟩ := Action.bind_eq_ok.mp h
  exact (require_eq_ok.mp hFeatures).1

/-- It is finished once its operands are resolved. -/
theorem finish_of_dispatch [DecidableEq Mode] {m : Mnemonic} {implied : Option Nat} {c c' : Cursor}
    (h : dispatch F site m implied c s = .ok c' s') :
    ∃ first second,
      resolveOperands F site.machine ⟨s.symbols, s.output.positionExpr site.span, F.isReserved⟩ m implied
        c = .ok (first, second, c') ∧
      finish F site ⟨m, first, second⟩ s = .ok () s' := by
  obtain ⟨⟨⟩, s₁, hFeatures, hRest⟩ := Action.bind_eq_ok.mp h
  obtain ⟨-, rfl⟩ := require_eq_ok.mp hFeatures
  obtain ⟨_, _, hGet, hRest⟩ := Action.bind_eq_ok.mp hRest
  obtain ⟨rfl, rfl⟩ := Action.get_eq_ok.mp hGet
  obtain ⟨⟨first, second, c₁⟩, s₁, hRequire, hRest⟩ := Action.bind_eq_ok.mp hRest
  obtain ⟨hResolve, rfl⟩ := require_eq_ok.mp hRequire
  obtain ⟨⟨⟩, s₂, hFinish, hDone⟩ := Action.bind_eq_ok.mp hRest
  obtain ⟨rfl, rfl⟩ := Action.pure_eq_ok.mp hDone
  exact ⟨first, second, hResolve, hFinish⟩

-- --------
-- Getting through
-- --------

theorem checkRange_of_fits {e : Expr} {w : Width} (h : ∀ v, e.value? = some v → w.fits v = true) :
    e.checkRange w.low w.high = .ok e := by
  unfold Expr.checkRange
  cases hValue : e.value? with
  | none => rfl
  | some v => exact if_pos (h v hValue)

/-- Items are written if those with a known value have room for it. -/
theorem emitItems_of_fits {items : List Item}
    (h : ∀ e w v, Item.value e w ∈ items → e.value? = some v → w.fits v = true) :
    items.forM emitItem s = .ok () { s with output := s.output.writeAll items } := by
  induction items generalizing s with
  | nil => rfl
  | cons item items ih =>
    refine Action.forM_cons_eq_ok.mpr ⟨{ s with output := s.output.write item }, ?_, ?_⟩
    · cases item with
      | bytes bytes => rfl
      | value e w =>
        have hCheck := checkRange_of_fits fun v => h e w v List.mem_cons_self
        refine Action.bind_eq_ok.mpr ⟨e, s, require_eq_ok.mpr ⟨hCheck, rfl⟩, rfl⟩
    · exact ih fun e w v hMem => h e w v (List.mem_cons_of_mem _ hMem)

omit [Flag Mode] [Flag Feature] in
theorem writeNative_of_fits {items : List Item} (hNative : F.native (setting site s) i = .ok items)
    (hFits : ∀ e w v, Item.value e w ∈ items → e.value? = some v → w.fits v = true) :
    writeNative F site i s = .ok () { s with output := s.output.writeAll items } := by
  refine Action.bind_eq_ok.mpr ⟨s, s, rfl, Action.bind_eq_ok.mpr ⟨items, s, ?_, ?_⟩⟩
  · exact require_eq_ok.mpr ⟨hNative, rfl⟩
  · exact emitItems_of_fits hFits

/-- A native part of an expansion is written if it passes the checks and its values fit. -/
theorem encodeNative_of_fits {items : List Item} (hFeatures : checkFeatures F site i.mnemonic = .ok ())
    (hOperands : checkOperands F site i = .ok ()) (hNative : F.native (setting site s) i = .ok items)
    (hFits : ∀ e w v, Item.value e w ∈ items → e.value? = some v → w.fits v = true) :
    encodeNative F site i s =
      .ok () { s with output := s.output.writeAll items, instructions := s.instructions + 1 } := by
  refine Action.bind_eq_ok.mpr ⟨(), s, require_eq_ok.mpr ⟨hFeatures, rfl⟩, ?_⟩
  refine Action.bind_eq_ok.mpr ⟨(), s, require_eq_ok.mpr ⟨hOperands, rfl⟩, ?_⟩
  refine Action.bind_eq_ok.mpr ⟨(), { s with instructions := s.instructions + 1 }, rfl, ?_⟩
  exact writeNative_of_fits hNative hFits

/-- An instruction whose operands pass comes down to its expansion. -/
theorem finish_of_expansion {x : Expansion Mnemonic Mode} (hOperands : checkOperands F site i = .ok ())
    (hExpansion : F.expansion? (setting site s) i = some x) :
    finish F site i s = writeExpansion F site i.mnemonic x { s with instructions := s.instructions + 1 } := by
  have hCheck : require (checkOperands F site i) s = .ok () s := require_eq_ok.mpr ⟨hOperands, rfl⟩
  have hCount : count s = .ok () { s with instructions := s.instructions + 1 } := rfl
  have hHere : F.expansion? (setting site { s with instructions := s.instructions + 1 }) i = some x :=
    hExpansion
  unfold finish
  rw [Action.bind_of_ok hCheck, Action.bind_of_ok hCount,
    Action.bind_of_ok (Action.get_eq_ok.mpr ⟨rfl, rfl⟩), hHere]

/-- With its operands resolved, an instruction of the source only has to be finished. -/
theorem dispatch_of_operands [DecidableEq Mode] {m : Mnemonic} {implied : Option Nat} {c c' : Cursor}
    {first second : Operand Mode} (hFeatures : checkFeatures F site m = .ok ())
    (hResolve : resolveOperands F site.machine ⟨s.symbols, s.output.positionExpr site.span, F.isReserved⟩ m
      implied c = .ok (first, second, c')) :
    dispatch F site m implied c s = (finish F site ⟨m, first, second⟩ >>= fun _ => pure c') s := by
  have hCheck : require (checkFeatures F site m) s = .ok () s := require_eq_ok.mpr ⟨hFeatures, rfl⟩
  unfold dispatch
  rw [Action.bind_of_ok hCheck, Action.bind_of_ok (Action.get_eq_ok.mpr ⟨rfl, rfl⟩),
    Action.bind_of_ok (require_eq_ok.mpr ⟨hResolve, rfl⟩)]

/-- So it is dispatched if it can be finished. -/
theorem dispatch_iff_finish [DecidableEq Mode] {m : Mnemonic} {implied : Option Nat} {c c' c'' : Cursor}
    {first second : Operand Mode} (hFeatures : checkFeatures F site m = .ok ())
    (hResolve : resolveOperands F site.machine ⟨s.symbols, s.output.positionExpr site.span, F.isReserved⟩ m
      implied c = .ok (first, second, c')) :
    dispatch F site m implied c s = .ok c'' s' ↔
      c' = c'' ∧ finish F site ⟨m, first, second⟩ s = .ok () s' := by
  rw [dispatch_of_operands hFeatures hResolve, Action.bind_eq_ok]
  constructor
  · rintro ⟨⟨⟩, s₁, hFinish, hDone⟩
    obtain ⟨rfl, rfl⟩ := Action.pure_eq_ok.mp hDone
    exact ⟨rfl, hFinish⟩
  · rintro ⟨rfl, hFinish⟩
    exact ⟨(), s', hFinish, rfl⟩

/-- A diagnostic is reported unless the policy makes it an error. -/
theorem exists_report_iff {policy : Policy} {d : Diagnostic} :
    (∃ s', report policy d s = .ok () s') ↔ policy.isError d = false := by
  have hJudge : (∃ reported, policy.judge d = .ok reported) ↔ policy.isError d = false := by
    unfold Policy.judge
    cases policy.isError d with
    | true => simp
    | false =>
      simp only [Bool.false_eq_true, if_false, iff_true]
      split
      · exact ⟨[], rfl⟩
      · exact ⟨[d], rfl⟩
  rw [← hJudge]
  constructor
  · rintro ⟨s', h⟩
    obtain ⟨reported, s₁, hRequire, -⟩ := Action.bind_eq_ok.mp h
    exact ⟨reported, (require_eq_ok.mp hRequire).1⟩
  · rintro ⟨reported, h⟩
    exact ⟨_, Action.bind_eq_ok.mpr ⟨reported, s, require_eq_ok.mpr ⟨h, rfl⟩, rfl⟩⟩

end CrossAsm.Encoder
