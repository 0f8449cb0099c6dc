import CrossAsm.Mos65
import CrossAsm.Proofs.Control

/-!
# CrossAsm — conditional jumps of the 65xx family

A CPU without 16-bit branches has no conditional jump. It is expanded to a branch over a jump, and the branch
is on the inverse condition.

* `Condition.holds` — when a condition holds.
* `jumps` — the branches and jumps in a sequence of bytes, with the addresses they lead to.
* `jumps_of_longJump` — what the code of a conditional jump consists of.
-/

namespace CrossAsm.Mos65

-- --------
-- Branches and jumps
-- --------

/-- The flags that branches depend on. -/
structure Flags where
  negative : Bool
  overflow : Bool
  carry : Bool
  zero : Bool

/-- Whether a condition holds. -/
def Condition.holds (flags : Flags) : Condition → Bool
  | .pl => !flags.negative
  | .mi => flags.negative
  | .vc => !flags.overflow
  | .vs => flags.overflow
  | .cc => !flags.carry
  | .cs => flags.carry
  | .ne => !flags.zero
  | .eq => flags.zero

theorem Condition.holds_inverse (c : Condition) (flags : Flags) :
    c.inverse.holds flags = !c.holds flags := by
  cases c <;> simp [inverse, holds]

/-- The condition of a branch. The highest three bits of the opcode select it. -/
def branchCondition? (opcode : UInt8) : Option Condition :=
  if opcode &&& 0x1f = 0x10 then Condition.all[(opcode >>> 5).toNat]? else none

/-- The branches and absolute jumps in a sequence of bytes that starts at an address. -/
def jumps (pc : BitVec 16) : List UInt8 → Option (List (Jump Condition (BitVec 16)))
  | [] => some []
  | [_] => none
  | opcode :: operand :: rest =>
    match branchCondition? opcode with
    | some c => (jumps (pc + 2) rest).map (⟨some c, pc + 2 + extended operand⟩ :: ·)
    | none =>
      match rest with
      | [] => none
      | high :: rest =>
        if opcode = 0x4c then (jumps (pc + 3) rest).map (⟨none, joined operand high⟩ :: ·) else none

theorem jumps_branch (pc : BitVec 16) (c : Condition) (distance : UInt8) (rest : List UInt8) :
    jumps pc (c.opcode :: distance :: rest) =
      (jumps (pc + 2) rest).map (⟨some c, pc + 2 + extended distance⟩ :: ·) := by
  cases c <;> rfl

-- --------
-- Conditional jumps
-- --------

section Encodings

variable {setting : Setting Feature} {items : List Item} {span : Span}

theorem has_ce02_eq_false (h : Feature.ce02 ∉ setting.features) : setting.has {.ce02} = false := by
  apply Bool.eq_false_iff.mpr
  intro hHas
  exact h (FlagSet.includes_iff.mp hHas .ce02 (by decide))

/-- A branch is short on a CPU without others. -/
theorem native_branch {c : Condition} {label : Expr} (hFeatures : Feature.ce02 ∉ setting.features)
    (h : native setting ⟨.branch c, .withValue .relative label span, .bare .none span⟩ = .ok items) :
    items = [.bytes [c.opcode], .value (label.relativeTo setting.counter 2) .signedByte] := by
  have hShort : isLongBranch setting (.withValue .relative label span) = false := by
    simp [isLongBranch, has_ce02_eq_false hFeatures, Operand.withValue]
  simp only [native, branchItems, hShort] at h
  exact (Except.ok.inj h).symm

theorem native_jmp {target : Expr}
    (h : native setting ⟨.special .jmp, .withValue .absolute target span, .bare .none span⟩ = .ok items) :
    items = [.bytes [0x4c], .value target .word] := by
  have hForm : native setting ⟨.special .jmp, .withValue .absolute target span, .bare .none span⟩ =
      if setting.has {.base} then .ok [.bytes [0x4c], .value target .word]
      else .error (lacking (.withValue .absolute target span) {.base}) := rfl
  rw [hForm] at h
  split at h
  · exact (Except.ok.inj h).symm
  · cases h

end Encodings

variable {i : Instr} {c : Condition} {site : Site Feature} {a e : Encoder} {table : SymbolTable}
  {base start : Value} {code : List UInt8}

theorem expansion?_detour (hMnemonic : i.mnemonic = .jump c) (hFeatures : Feature.ce02 ∉ site.machine.features) :
    family.expansion? (Encoder.setting site a) i = some ⟨true, true,
      [part (.branch c.inverse) (.withValue .relative (.symbol a.symbols.nextLabel site.span) i.first.span)
        i.first.span,
       part (.special .jmp) (.withValue .absolute (i.first.value 0) i.first.span) i.first.span,
       .label]⟩ := by
  have hShort : (Encoder.setting site a).has {.ce02} = false := has_ce02_eq_false hFeatures
  show expansion? _ i = _
  simp only [expansion?, hMnemonic, longJump, hShort]
  rfl

/-- The code of a conditional jump: a branch on the inverse condition to what is behind it, and a jump to the
operand. -/
theorem jumps_of_longJump (hMnemonic : i.mnemonic = .jump c)
    (hFeatures : Feature.ce02 ∉ site.machine.features) (hFinish : Encoder.finish family site i a = .ok () e)
    (hPlaced : Encoder.Placed table base a e start code) :
    ∃ v, table.evaluate base (i.first.value 0) = .ok v ∧
      jumps start.word code =
        some [⟨some c.inverse, behind start code⟩, ⟨none, v.word⟩] := by
  obtain ⟨at₁, at₂, items, items', hOutput, hSkip, hJump, hWrites, hLabel⟩ :=
    Encoder.detour_of_finish hFinish (expansion?_detour hMnemonic hFeatures)
  obtain rfl := native_branch hFeatures hSkip
  obtain rfl := native_jmp hJump
  have hLinked := hPlaced.linked _ hWrites
  have hPos : 0 < code.length := by
    rw [hLinked.length_eq]
    exact Nat.succ_pos _
  have hPast := hPlaced.evaluate_label hWrites hPos hLabel site.span
  have hCounter : table.evaluate base (Encoder.setting site at₁).counter = .ok start := by
    show table.evaluate base (at₁.output.positionExpr site.span) = _
    rw [hOutput]
    exact hPlaced.evaluate_counter hPos site.span
  unfold behind
  generalize start + Value.ofNat code.length = past at hPast ⊢
  cases hLinked with
  | bytes hFront =>
  obtain ⟨v, d, out, hValue, hReaches, rfl, hBehind⟩ := hFront.of_distance hCounter
  obtain rfl := Except.ok.inj (hValue.symm.trans hPast)
  cases hBehind with
  | bytes hBack =>
  obtain ⟨target, low, high, out', hTarget, hWord, rfl, hEnd⟩ := hBack.of_word
  cases hEnd
  refine ⟨target, hTarget, ?_⟩
  rw [← hReaches, ← hWord]
  exact jumps_branch start.word c.inverse d [0x4c, low, high]

end CrossAsm.Mos65
