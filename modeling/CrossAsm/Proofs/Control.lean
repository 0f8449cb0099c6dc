import CrossAsm.Proofs.Program.Code
import CrossAsm.Proofs.Symbol.Fresh
import CrossAsm.Proofs.Word

/-!
# CrossAsm — where control goes

Code that consists of jumps passes control to the target of the first jump that is taken, or on to what is
behind it. A family says how jumps are read from bytes and when a condition holds.

* `Jump.leads` — where a sequence of jumps leads.
* `Encoder.detour_of_finish` — a jump over another one to a made-up label behind both.
-/

namespace CrossAsm

-- --------
-- Jumps
-- --------

/-- A jump, on a condition or always. -/
structure Jump (Condition Target : Type) where
  condition : Option Condition
  target : Target
deriving DecidableEq

namespace Jump

variable {Condition Target : Type}

/-- Where a sequence of jumps leads if `next` is behind it. -/
def leads (holds : Condition → Bool) (next : Target) : List (Jump Condition Target) → Target
  | [] => next
  | jump :: rest => if jump.condition.all holds then jump.target else leads holds next rest

/-- A jump over a jump is a jump on the inverse condition. -/
theorem leads_detour {holds : Condition → Bool} {c inverse : Condition}
    (hInverse : holds inverse = !holds c) (next operand : Target) :
    leads holds next [⟨some inverse, next⟩, ⟨none, operand⟩] = if holds c then operand else next := by
  simp only [leads, Option.all_some, Option.all_none, hInverse]
  cases holds c <;> rfl

end Jump

/-- The address behind code. -/
def behind (start : Value) (code : List UInt8) : BitVec 16 := (start + Value.ofNat code.length).word

-- --------
-- Detours
-- --------

namespace Encoder

variable {Mnemonic Mode Feature : Type} [Flag Mode] [Flag Feature] {F : Family Mnemonic Mode Feature}
  {site : Site Feature} {i skip jump : Instruction Mnemonic Mode} {s s' : Encoder}

/-- A label stands at the end of what was written. -/
theorem label_of_bindLabel {label : String} {span : Span} (h : bindLabel label span s = .ok () s') :
    s'.output = s.output ∧ s'.symbols.find? label = some ⟨label, s.output.positionExpr span, span⟩ := by
  obtain ⟨symbols, hDefine, rfl⟩ := bindLabel_eq_ok.mp h
  exact ⟨rfl, SymbolTable.find?_of_define hDefine⟩

theorem bindLabel_of_find? {label : String} (h : s.symbols.find? label = none) (span : Span) :
    ∃ symbols, bindLabel label span s = .ok () { s with symbols } := by
  obtain ⟨symbols, hDefine⟩ := SymbolTable.exists_define h (s.output.positionExpr span) span
  exact ⟨symbols, bindLabel_eq_ok.mpr ⟨symbols, hDefine, rfl⟩⟩

/-- Two native instructions and a label behind them. -/
theorem detour_of_finish {synthesized : Bool} (h : finish F site i s = .ok () s')
    (hExpansion : F.expansion? (setting site s) i =
      some ⟨synthesized, true, [.native skip, .native jump, .label]⟩) :
    ∃ at₁ at₂ items items', at₁.output = s.output ∧ F.native (setting site at₁) skip = .ok items ∧
      F.native (setting site at₂) jump = .ok items' ∧ Writes (items ++ items') s s' ∧
      s'.symbols.find? s.symbols.nextLabel =
        some ⟨s.symbols.nextLabel, s'.output.positionExpr site.span, site.span⟩ := by
  obtain ⟨label, s₁, hOutput, hLabel, hParts⟩ := parts_of_finish h hExpansion
  obtain rfl := hLabel rfl
  obtain ⟨s₂, hSkip, hParts⟩ := Action.forM_cons_eq_ok.mp hParts
  obtain ⟨s₃, hJump, hParts⟩ := Action.forM_cons_eq_ok.mp hParts
  obtain ⟨s₄, hBind, hParts⟩ := Action.forM_cons_eq_ok.mp hParts
  obtain ⟨-, rfl⟩ := Action.pure_eq_ok.mp hParts
  obtain ⟨items, hNative, hWrites⟩ := writes_encodeNative hSkip
  obtain ⟨items', hNative', hWrites'⟩ := writes_encodeNative hJump
  obtain ⟨hSame, hFind⟩ := label_of_bindLabel hBind
  have hBoth := hWrites.append hWrites'
  refine ⟨s₁, s₂, items, items', hOutput, hNative, hNative', ⟨?_, hBoth.fits⟩, ?_⟩
  · rw [hSame, hBoth.output, hOutput]
  · rw [hSame]
    exact hFind

/-- A native instruction is encoded wherever it stands. -/
def Encodable (F : Family Mnemonic Mode Feature) (site : Site Feature) (i : Instruction Mnemonic Mode) : Prop :=
  ∀ s, ∃ output, encodeNative F site i s = .ok () { s with output, instructions := s.instructions + 1 }

/-- Such an expansion gets through if both instructions do, since the label is new. -/
theorem finish_of_detour (hOperands : checkOperands F site i = .ok ())
    (hExpansion : F.expansion? (setting site s) i = some ⟨true, true, [.native skip, .native jump, .label]⟩)
    (hSynthesis : site.machine.synthesis = true) (hFresh : s.symbols.Fresh) (hSkip : Encodable F site skip)
    (hJump : Encodable F site jump) :
    ∃ s', finish F site i s = .ok () s' ∧ s'.synthesized = true ∧ s'.instructions = s.instructions + 3 := by
  have hSynthesized : requireSynthesis F site i.mnemonic { s with instructions := s.instructions + 1 } =
      .ok () { s with instructions := s.instructions + 1, synthesized := true } := by
    unfold requireSynthesis
    rw [if_pos hSynthesis]
    rfl
  obtain ⟨output, hSkipped⟩ := hSkip
    { s with instructions := s.instructions + 1, synthesized := true, symbols := s.symbols.mint }
  obtain ⟨output', hJumped⟩ := hJump
    { s with output, instructions := s.instructions + 2, synthesized := true, symbols := s.symbols.mint }
  have hFree : s.symbols.mint.find? s.symbols.nextLabel = none := hFresh.find?_nextLabel
  obtain ⟨symbols, hBind⟩ := bindLabel_of_find?
    (s := ⟨output', s.symbols.mint, s.reported, s.instructions + 3, true⟩) hFree site.span
  refine ⟨⟨output', symbols, s.reported, s.instructions + 3, true⟩, ?_, rfl, rfl⟩
  rw [finish_of_expansion hOperands hExpansion, writeExpansion_eq]
  refine Action.bind_eq_ok.mpr ⟨(), _, hSynthesized, Action.bind_eq_ok.mpr ⟨_, _, rfl, ?_⟩⟩
  refine Action.forM_cons_eq_ok.mpr ⟨_, hSkipped, ?_⟩
  refine Action.forM_cons_eq_ok.mpr ⟨_, hJumped, ?_⟩
  exact Action.forM_cons_eq_ok.mpr ⟨_, hBind, rfl⟩

/-- A made-up label behind an instruction stands for the address behind its code. -/
theorem Placed.evaluate_label {t : SymbolTable} {base start : Value} {code : List UInt8} {items : List Item}
    {label : String} {span : Span} (h : Placed t base s s' start code) (hWrites : Writes items s s')
    (hPos : 0 < code.length)
    (hLabel : s'.symbols.find? label = some ⟨label, s'.output.positionExpr span, span⟩) (usage : Span) :
    t.evaluate base (.symbol label usage) = .ok (start + Value.ofNat code.length) := by
  have hValue := SymbolTable.evaluate_of_position (SymbolTable.find?_mono h.symbols hLabel) base usage
  have hSize : s'.output.size = s.output.size + code.length := by
    rw [hWrites.output, Section.size_writeAll, (h.linked items hWrites).length_eq]
  rw [hValue, h.origin, hSize, h.start hPos, Value.ofNat, Int64.ofNat_add, ← Int64.add_assoc]
  rfl

end Encoder

end CrossAsm
