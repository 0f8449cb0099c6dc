import CrossAsm.Proofs.Assembly.Line
import CrossAsm.Proofs.Z80.Synthesis
import Mathlib.Logic.Function.Iterate
import Mathlib.Order.WellFounded

/-!
# CrossAsm — assembling comes to an end

A source is assembled step by step while tokens are left, and a statement may be expressed by others, which are
encoded in turn. Neither goes on for ever.

* `Z80.isNative_of_expansion?`, `Mos65.isNative_of_expansion?` — what an instruction is expressed by is native.
* `Assembly.exhausted_iterate` — a step reads a token, so there are no more steps than tokens.
* `Assembly.assembling_ends` — both together.
-/

namespace CrossAsm

-- --------
-- Instructions in place of others
-- --------

/-- An instruction is encoded in place of another one, or of a part of it. -/
def Family.Reenters {Mnemonic Mode Feature : Type} (F : Family Mnemonic Mode Feature)
    (i j : Instruction Mnemonic Mode) : Prop :=
  ∃ s x, F.expansion? s i = some x ∧ .native j ∈ x.parts

/-- A part that is not expressed by others again. -/
def Family.IsNative {Mnemonic Mode Feature : Type} (F : Family Mnemonic Mode Feature) (p : Part Mnemonic Mode) : Prop :=
  ∀ j s, p = .native j → F.expansion? s j = none

theorem Family.isNative_of_ne {Mnemonic Mode Feature : Type} {F : Family Mnemonic Mode Feature}
    {p : Part Mnemonic Mode} (h : ∀ j, p ≠ .native j) : F.IsNative p :=
  fun j _ hPart => absurd hPart (h j)

namespace Z80

variable {i : Instr} {x : Expanded} {first second : Operand Mode} {parts : List (Part Mnemonic Mode)}

/-- A register or a byte in memory behind an index register. -/
def IsByte (o : Operand Mode) : Prop := (∃ r, view o = .register r) ∨ ∃ x d, view o = .indexed x d

theorem isByte_registerOperand (r : Reg) (span : Span) : IsByte (registerOperand r span) :=
  .inl ⟨r, view_registerOperand r span⟩

theorem isNative_part {m : Mnemonic} (h : ∀ s, expansion? s ⟨m, first, second⟩ = none) :
    family.IsNative (part m first second) := by
  intro j s hPart
  cases hPart
  exact h s

theorem isNative_ld (hFirst : IsByte first) (hSecond : IsByte second) : family.IsNative (part .ld first second) := by
  refine isNative_part fun s => ?_
  rw [expansion?_ld rfl]
  rcases hFirst with ⟨r, hFirst⟩ | ⟨x, d, hFirst⟩ <;> rcases hSecond with ⟨r', hSecond⟩ | ⟨y, e, hSecond⟩ <;>
    simp [copyPair, movePair, moveIndexed, hFirst, hSecond]

theorem isNative_shift (op : Shift) (r : Reg) (span : Span) :
    family.IsNative (part (.shift op) (registerOperand r span) second) :=
  isNative_part fun s => by simp [expansion?, shiftPair, view_registerOperand]

theorem isNative_plain {m : Mnemonic} (h : m = .push ∨ m = .pop ∨ m = .inc ∨ m = .dec) :
    family.IsNative (part m first second) := by
  refine isNative_part fun s => ?_
  rcases h with rfl | rfl | rfl | rfl <;> rfl

theorem isNative_of_copyPair (h : copyPair i = some parts) : ∀ p ∈ parts, family.IsNative p := by
  unfold copyPair at h
  dsimp only at h
  split at h
  case h_5 => cases h
  all_goals
    try split at h
    all_goals cases h
    all_goals simp [isNative_ld, isByte_registerOperand, isNative_plain]

theorem isNative_of_movePair (h : movePair i = some parts) : ∀ p ∈ parts, family.IsNative p := by
  unfold movePair at h
  dsimp only at h
  split at h
  case h_3 => cases h
  · next p hFirst hSecond =>
    have hByte : IsByte i.second := .inl ⟨_, hSecond⟩
    split at h
    all_goals cases h
    simp [isNative_ld, isByte_registerOperand, isNative_plain, hByte]
  · next p hFirst hSecond =>
    have hByte : IsByte i.first := .inl ⟨_, hFirst⟩
    split at h
    all_goals cases h
    simp [isNative_ld, isByte_registerOperand, isNative_plain, hByte]

theorem isNative_of_moveIndexed (h : moveIndexed i = some parts) : ∀ p ∈ parts, family.IsNative p := by
  unfold moveIndexed at h
  dsimp only at h
  split at h
  case h_3 => cases h
  · next p x d hFirst hSecond =>
    have hByte : IsByte i.second ∧ IsByte (displaced i.second 1) :=
      ⟨.inr ⟨x, d, hSecond⟩, .inr ⟨x, _, view_displaced hSecond 1⟩⟩
    split at h
    all_goals cases h
    simp [isNative_ld, isByte_registerOperand, hByte]
  · next x d p hFirst hSecond =>
    have hByte : IsByte i.first ∧ IsByte (displaced i.first 1) :=
      ⟨.inr ⟨x, d, hFirst⟩, .inr ⟨x, _, view_displaced hFirst 1⟩⟩
    split at h
    all_goals cases h
    simp [isNative_ld, isByte_registerOperand, hByte]

theorem isNative_of_shiftPair {op : Shift} (h : shiftPair i op = some parts) : ∀ p ∈ parts, family.IsNative p := by
  unfold shiftPair at h
  dsimp only at h
  split at h
  · split at h
    · cases h
    · split at h <;> cases h <;> simp [isNative_shift]
  · cases h

/-- A jump to an address is native, and a relative one on a condition that it has. -/
theorem isNative_skip (cc : Condition) (e : Expr) (span span' : Span) :
    family.IsNative (part .jp (.withRegister .condition cc.code span) (.withValue .address e span')) ∧
      (cc.isShort = true →
        family.IsNative (part .jr (.withRegister .condition cc.code span) (.withValue .relative e span'))) := by
  refine ⟨isNative_part fun s => rfl, fun hShort => isNative_part fun s => ?_⟩
  show (if cc.isShort then none else _).map _ = none
  rw [if_pos hShort]
  rfl

/-- So is a jump without a condition. -/
theorem isNative_jp (h : ∀ cc, view first ≠ .condition cc) (span : Span) :
    family.IsNative (part .jp first (.bare .none span)) := by
  refine isNative_part fun s => ?_
  have hNone : conditional ⟨.jp, first, .bare .none span⟩ = (none, first) := by
    unfold conditional
    split
    · next cc hView => exact absurd hView (h cc)
    · rfl
  simp [expansion?, conditionalJump, hNone]

theorem isNative_of_conditionalJump {s : Setting Feature} (h : conditionalJump s i = some parts) :
    ∀ p ∈ parts, family.IsNative p := by
  have hLabel : family.IsNative .label := Family.isNative_of_ne (by simp)
  unfold conditionalJump at h
  dsimp only at h
  split at h
  · cases h
  · split at h
    case h_3 => cases h
    all_goals
      next hView =>
      have hJump (span : Span) := isNative_jp (fun cc hOther => by rw [hView] at hOther; cases hOther) span
      cases h
      split <;> simp_all [isNative_skip]

theorem isNative_of_farJump (h : farJump i = some parts) : ∀ p ∈ parts, family.IsNative p := by
  unfold farJump at h
  split at h
  · cases h
  · split at h
    · split at h <;> cases h
      exact List.forall_mem_singleton.mpr (isNative_skip ..).1
    · cases h

/-- **What an instruction is expressed by is native.** -/
theorem isNative_of_expansion? {s : Setting Feature} (h : expansion? s i = some x) :
    ∀ p ∈ x.parts, family.IsNative p := by
  unfold expansion? at h
  split at h
  case h_5 => cases h
  all_goals obtain ⟨parts, hParts, rfl⟩ := Option.map_eq_some_iff.mp h
  · simp only [Option.orElse_eq_orElse, Option.orElse_eq_or, Option.or_eq_some_iff] at hParts
    rcases hParts with hParts | ⟨-, hParts | ⟨-, hParts⟩⟩
    · exact isNative_of_copyPair hParts
    · exact isNative_of_movePair hParts
    · exact isNative_of_moveIndexed hParts
  · exact isNative_of_shiftPair hParts
  · exact isNative_of_conditionalJump hParts
  · exact isNative_of_farJump hParts

end Z80

namespace Mos65

variable {i : Instr} {x : Expanded}

theorem isNative_part {m : Mnemonic} {first second : Operand Mode}
    (h : ∀ s first second, expansion? s ⟨m, first, second⟩ = none) : family.IsNative (.native ⟨m, first, second⟩) := by
  intro j s hPart
  cases hPart
  exact h s first second

theorem isNative_of_quad {m : Mnemonic} (h : ∀ s first second, expansion? s ⟨m, first, second⟩ = none) :
    ∀ p ∈ (quad i m).parts, family.IsNative p := by
  have hPrefix : family.IsNative (.bytes [0x42, 0x42]) := Family.isNative_of_ne (by simp)
  exact List.forall_mem_cons.mpr ⟨hPrefix, List.forall_mem_singleton.mpr (isNative_part h)⟩

theorem isNative_of_loadQuad (o : Operand Mode) : ∀ p ∈ (loadQuad o).parts, family.IsNative p := by
  have hCheck : family.IsNative (.check (o.value 0) (-0x80000000) 0xffffffff) := Family.isNative_of_ne (by simp)
  refine List.forall_mem_cons.mpr ⟨hCheck, List.forall_mem_cons.mpr ⟨isNative_part fun _ _ _ => rfl, ?_⟩⟩
  refine List.forall_mem_map.mpr fun load _ => ?_
  dsimp only
  split <;> exact isNative_part fun _ _ _ => rfl

theorem isNative_of_longJump (s : Setting Feature) (o : Operand Mode) (c : Condition) :
    ∀ p ∈ (longJump s o c).parts, family.IsNative p := by
  have hLabel : family.IsNative .label := Family.isNative_of_ne (by simp)
  unfold longJump
  dsimp only
  split
  · exact List.forall_mem_singleton.mpr (isNative_part fun _ _ _ => rfl)
  · exact List.forall_mem_cons.mpr ⟨isNative_part fun _ _ _ => rfl, List.forall_mem_cons.mpr
      ⟨isNative_part fun _ _ _ => rfl, List.forall_mem_singleton.mpr hLabel⟩⟩

/-- **What an instruction is expressed by is native.** -/
theorem isNative_of_expansion? {s : Setting Feature} (h : expansion? s i = some x) :
    ∀ p ∈ x.parts, family.IsNative p := by
  unfold expansion? at h
  split at h
  all_goals cases h
  · split
    · exact isNative_of_loadQuad i.first
    · exact isNative_of_quad fun _ _ _ => rfl
  · exact isNative_of_quad fun _ _ _ => rfl
  · exact isNative_of_quad fun _ _ _ => rfl
  · exact isNative_of_quad fun _ _ _ => rfl
  · exact isNative_of_quad fun _ _ _ => rfl
  · exact isNative_of_longJump s i.first _

end Mos65

namespace Family

variable {Mnemonic Mode Feature : Type} {F : Family Mnemonic Mode Feature}

theorem Shipped.expansion?_eq_none {i j : Instruction Mnemonic Mode} (hF : F.Shipped) (h : F.Reenters i j)
    (s : Setting Feature) : F.expansion? s j = none := by
  obtain ⟨s', x, hExpansion, hPart⟩ := h
  cases hF with
  | mos65 => exact Mos65.isNative_of_expansion? hExpansion _ hPart j s rfl
  | z80 => exact Z80.isNative_of_expansion? hExpansion _ hPart j s rfl

theorem Shipped.not_reenters {i j : Instruction Mnemonic Mode} (hF : F.Shipped) (h : F.Reenters i j)
    (k : Instruction Mnemonic Mode) : ¬ F.Reenters j k := by
  rintro ⟨s, x, hExpansion, -⟩
  rw [hF.expansion?_eq_none h s] at hExpansion
  cases hExpansion

theorem Shipped.wellFounded_reenters (hF : F.Shipped) : WellFounded fun j i => F.Reenters i j := by
  refine ⟨fun i => .intro i fun j hij => .intro j fun k hjk => ?_⟩
  exact absurd hjk (hF.not_reenters hij k)

/-- So the parts of an instruction are encoded as the instructions that they are. -/
theorem Shipped.encodePart_eq [DecidableEq Mode] [Flag Mode] [Flag Feature] {i j : Instruction Mnemonic Mode}
    (hF : F.Shipped) (h : F.Reenters i j) (site : Site Feature) (label : String) :
    Encoder.encodePart F site label (.native j) = Encoder.encode F site j := by
  unfold Encoder.encodePart Encoder.encodeNative Encoder.encode Encoder.finish
  simp only [hF.expansion?_eq_none h]
  rfl

end Family

-- --------
-- Steps through a source
-- --------

namespace Assembly

variable {Mnemonic Mode Feature : Type} [DecidableEq Mode] [Flag Mode] [Flag Feature]
  {job : Job Mnemonic Mode Feature} {s : Assembly Feature}

theorem steps_of_exhausted (h : s.cursor.isExhausted = true) (n : Nat) : steps job n s = s := by
  cases n with
  | zero => rfl
  | succ n => rw [steps, if_pos h]

/-- **There are no more steps than tokens**, and all tokens are read then. -/
theorem exhausted_iterate (hF : job.family.Shipped) (hScanned : s.cursor.Scanned) :
    ∃ n ≤ s.cursor.rest.length, (∀ m < n, ((step job)^[m] s).cursor.isExhausted = false) ∧
      ((step job)^[n] s).cursor.isExhausted = true ∧ ∀ m ≥ n, steps job m s = (step job)^[n] s := by
  induction hLength : s.cursor.rest.length using Nat.strong_induction_on generalizing s with
  | h length ih =>
    cases hMore : s.cursor.isExhausted with
    | true =>
      refine ⟨0, Nat.zero_le _, fun m hm => absurd hm (Nat.not_lt_zero m), hMore, fun m _ => ?_⟩
      exact steps_of_exhausted hMore m
    | false =>
      have hStep := suffix_step hF hScanned hMore
      have hPos : 0 < s.cursor.rest.length := List.length_pos_iff.mpr (List.isEmpty_eq_false_iff.mp hMore)
      have hShorter := hStep.length_le
      rw [List.length_tail] at hShorter
      have hNext := hScanned.of_suffix (hStep.trans (List.tail_suffix _))
      obtain ⟨n, hn, hBefore, hEnd, hSteps⟩ := ih _ (by omega) hNext rfl
      refine ⟨n + 1, by omega, fun m hm => ?_, hEnd, fun m hm => ?_⟩
      · cases m with
        | zero => exact hMore
        | succ m => exact hBefore m (Nat.lt_of_succ_lt_succ hm)
      · obtain ⟨k, rfl⟩ : ∃ k, m = k + 1 := ⟨m - 1, by omega⟩
        rw [steps, if_neg (Bool.eq_false_iff.mp hMore)]
        exact hSteps k (by omega)

/-- A statement ends in front of a newline or behind all tokens. -/
theorem atEnd_statement (hF : job.family.Shipped) (hScanned : s.cursor.Scanned) :
    (statement job s).cursor.isAt .newline = true ∨ (statement job s).cursor.isExhausted = true := by
  have hEnd : (statement job s).cursor.atStatementEnd = true := by
    rw [cursor_statement hF]
    split <;> exact Cursor.atStatementEnd_skipStatement _
  have hSuffix : (statement job s).cursor.rest <:+ s.cursor.rest := by
    rw [cursor_statement hF]
    split
    · exact (Cursor.skipStatement_suffix _).trans ((Cursor.next_skipStatement_suffix _).trans (List.tail_suffix _))
    · exact Cursor.skipStatement_suffix _
  cases hMore : (statement job s).cursor.isExhausted with
  | true => exact .inr rfl
  | false => exact .inl (by rw [← (hScanned.of_suffix hSuffix).atStatementEnd_eq hMore, hEnd])

/-- **Assembling ends.** Whatever the tokens are, each step reads at least the first one, and a statement ends in
front of a newline or behind all tokens. So there are no more steps than tokens, and then all tokens are read; what is
assembled is what these steps lead to. Inside a step, the instructions that one is expressed by are not expressed by
others again. -/
theorem assembling_ends (job : Job Mnemonic Mode Feature) (hF : job.family.Shipped) :
    (∀ s : Assembly Feature, s.cursor.Scanned →
      (s.cursor.isExhausted = false → (step job s).cursor.rest <:+ s.cursor.rest.tail) ∧
      ((statement job s).cursor.isAt .newline = true ∨ (statement job s).cursor.isExhausted = true) ∧
      ∃ n ≤ s.cursor.rest.length, (∀ m < n, ((step job)^[m] s).cursor.isExhausted = false) ∧
        ((step job)^[n] s).cursor.isExhausted = true ∧ ∀ m ≥ n, steps job m s = (step job)^[n] s) ∧
    (∀ (machine : Machine Feature) (policy : Policy) (source : String) (tokens : List Token),
      Token.scan source = .ok tokens →
      let start : Assembly Feature := { machine, cursor := ⟨tokens, source.utf8ByteSize⟩ }
      start.cursor.Scanned ∧ ∃ n ≤ tokens.length,
        ((step (job.family.job policy source))^[n] start).cursor.isExhausted = true ∧
        job.family.assemble machine policy source = ((step (job.family.job policy source))^[n] start).finish) ∧
    (WellFounded fun j i => job.family.Reenters i j) ∧
    ∀ i j, job.family.Reenters i j → (∀ k, ¬ job.family.Reenters j k) ∧
      ∀ site label, Encoder.encodePart job.family site label (.native j) = Encoder.encode job.family site j := by
  refine ⟨fun s hScanned => ⟨suffix_step hF hScanned, atEnd_statement hF hScanned, exhausted_iterate hF hScanned⟩,
    fun machine policy source tokens hScan => ?_, hF.wellFounded_reenters,
    fun i j h => ⟨hF.not_reenters h, hF.encodePart_eq h⟩⟩
  intro start
  have hScanned : start.cursor.Scanned := Token.scan_lexeme_ne hScan
  have hJob : (job.family.job policy source).family.Shipped := hF
  obtain ⟨n, hn, -, hEnd, hSteps⟩ := exhausted_iterate hJob hScanned
  refine ⟨hScanned, n, hn, hEnd, ?_⟩
  rw [Family.assemble, hScan]
  exact congrArg Assembly.finish (hSteps tokens.length hn)

set_option maxRecDepth 10000 in
/-- A conditional jump to `(hl)`, which is expressed by two jumps, and a statement that overruns its line. -/
theorem assembling_ends_jump :
    let source := "jp nz,(hl)\n.cpu\nfoo"
    let i : Z80.Instr := ⟨.jp, .withRegister .condition 0 ⟨0, 0⟩, .withRegister .registerIndirect Z80.Pair.hl.code ⟨0, 0⟩⟩
    let j : Z80.Instr := ⟨.jp, .withRegister .registerIndirect Z80.Pair.hl.code ⟨0, 0⟩, .bare .none ⟨0, 0⟩⟩
    (∃ tokens, Token.scan source = .ok tokens ∧ ∃ n ≤ tokens.length,
      Z80.family.assemble { features := {} } {} source =
        ((step (Z80.family.job {} source))^[n] { machine := { features := {} }, cursor := ⟨tokens, source.utf8ByteSize⟩ }).finish) ∧
    Z80.family.Reenters i j ∧ ∀ k, ¬ Z80.family.Reenters j k := by
  intro source i j
  obtain ⟨-, hAssemble, -, hPart⟩ := assembling_ends (Z80.family.job {} source) .z80
  have hScan : (Token.scan source).isOk = true := by decide +kernel
  have hReenters : Z80.family.Reenters i j :=
    ⟨⟨{}, .const 0 ⟨0, 0⟩, .const 0 ⟨0, 0⟩⟩, _, rfl, .tail _ (.head _)⟩
  cases hTokens : Token.scan source with
  | error d =>
    rw [hTokens] at hScan
    cases hScan
  | ok tokens =>
    obtain ⟨-, n, hn, -, hSame⟩ := hAssemble { features := {} } {} source tokens hTokens
    exact ⟨⟨tokens, rfl, n, hn, hSame⟩, hReenters, (hPart i j hReenters).1⟩

end Assembly

end CrossAsm
