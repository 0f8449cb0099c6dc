import CrossAsm.Proofs.Operand.Resolution
import CrossAsm.Proofs.Program.Code
import CrossAsm.Proofs.Z80.Execution

/-!
# CrossAsm — words in terms of bytes

Loads and shifts of 16 bits that the processor does not have are expanded to ones that it has. Executed one
after the other they do what a single instruction would do.

* `ByteLoad`, `StackLoad` — the loads that are expanded, by what their operands select.
* `Selects` — where the word is that an operand selects.
* `synthesized_code_acts_on_words` — what the code of such an instruction does in every state.
-/

namespace CrossAsm.Z80

-- --------
-- Loads and shifts of words
-- --------

/-- The pairs with two halves. -/
def Pair.general : List Pair := [.bc, .de, .hl]

/-- The loads of a word that are made of loads of its bytes. -/
inductive ByteLoad : View → View → Prop
  | copy {t s : Pair} (ht : t ∈ Pair.general) (hs : s ∈ Pair.general) : ByteLoad (.pair t) (.pair s)
  | fromHl {p : Pair} (hp : p ∈ [Pair.bc, .de]) : ByteLoad (.pair p) (.register .m)
  | toHl {p : Pair} (hp : p ∈ [Pair.bc, .de]) : ByteLoad (.register .m) (.pair p)
  | fromIndexed {p : Pair} {x : Index} {d : Expr} (hp : p ∈ Pair.general) :
    ByteLoad (.pair p) (.indexed x d)
  | toIndexed {p : Pair} {x : Index} {d : Expr} (hp : p ∈ Pair.general) :
    ByteLoad (.indexed x d) (.pair p)

/-- The loads of a word that go over the stack. -/
inductive StackLoad : View → View → Prop
  | toPair {p : Pair} {x : Index} (hp : p ∈ Pair.general) : StackLoad (.pair p) (.index x)
  | toIndex {x : Index} {p : Pair} (hp : p ∈ Pair.general) : StackLoad (.index x) (.pair p)
  | copy {x y : Index} : StackLoad (.index x) (.index y)

/-- Where the word is that an operand selects in a state. -/
inductive Selects (t : SymbolTable) (base : Value) (m : State) : View → Place → Prop
  | pair (p : Pair) : Selects t base m (.pair p) (.pair p)
  | index (x : Index) : Selects t base m (.index x) (.index x)
  | hl : Selects t base m (.register .m) (.memory (m.pair .hl))
  | indexed {x : Index} {d : Expr} {v : Value} (h : t.evaluate base d = .ok v) :
    Selects t base m (.indexed x d) (.memory (m.index x + v.word))

/-- From every state, the code leaves the word that `source` selects where `target` says. Everything else is
left as `rest` has it, which is given the word too. -/
def LoadsWord (t : SymbolTable) (base : Value) (code : List UInt8) (target source : View)
    (rest : State → BitVec 16 → State) : Prop :=
  ∀ m, ∃ place place' m', Selects t base m target place ∧ Selects t base m source place' ∧
    run code m = some m' ∧ m'.word place = m.word place' ∧
    m' = (rest m (m.word place')).setWord place (m.word place')

/-- From every state, the code shifts a pair and the carry. Of everything else only the other flags change. -/
def ShiftsWord (code : List UInt8) (op : Shift) (p : Pair) : Prop :=
  ∀ m, ∃ m', run code m = some m' ∧
    (m'.pair p, m'.flags.carry) = op.apply (m.pair p) m.flags.carry ∧
    m' = { m.setPair p (m'.pair p) with flags := m'.flags }

theorem general_cases {p : Pair} (hp : p ∈ Pair.general) : p = .bc ∨ p = .de ∨ p = .hl := by
  simpa [Pair.general] using hp

-- --------
-- Runs
-- --------

section Runs

variable {t s p : Pair} {x : Index}

theorem run_of_ops {code : List UInt8} {list : List Op} (h : ops code = some list) (m : State) :
    run code m = some (list.foldl State.exec m) := by
  rw [run, h]
  rfl

theorem run_copy (ht : t ∈ Pair.general) (hs : s ∈ Pair.general) (m : State) :
    run [pack 0x40 t.halves.1.code 3 ||| s.halves.1.code,
      pack 0x40 t.halves.2.code 3 ||| s.halves.2.code] m = some (m.setPair t (m.pair s)) := by
  have hOps : ops [pack 0x40 t.halves.1.code 3 ||| s.halves.1.code,
      pack 0x40 t.halves.2.code 3 ||| s.halves.2.code] =
      some [.load (.register t.halves.1) (.register s.halves.1),
        .load (.register t.halves.2) (.register s.halves.2)] := by
    rcases general_cases ht with rfl | rfl | rfl <;> rcases general_cases hs with rfl | rfl | rfl <;> rfl
  rw [run_of_ops hOps]
  rcases general_cases ht with rfl | rfl | rfl <;> rcases general_cases hs with rfl | rfl | rfl <;>
    simp [State.exec, State.byte, State.setByte, State.register, State.setRegister, State.setPair,
      State.pair]

theorem run_fromHl (hp : p ∈ [Pair.bc, .de]) (m : State) :
    run [pack 0x40 p.halves.2.code 3 ||| Reg.m.code, pack 0x03 Pair.hl.code 4,
      pack 0x40 p.halves.1.code 3 ||| Reg.m.code, pack 0x0b Pair.hl.code 4] m =
      some (m.setPair p (m.word (.memory (m.pair .hl)))) := by
  have hCases : p = .bc ∨ p = .de := by simpa using hp
  have hOps : ops [pack 0x40 p.halves.2.code 3 ||| Reg.m.code, pack 0x03 Pair.hl.code 4,
      pack 0x40 p.halves.1.code 3 ||| Reg.m.code, pack 0x0b Pair.hl.code 4] =
      some [.load (.register p.halves.2) (.register .m), .inc .hl,
        .load (.register p.halves.1) (.register .m), .dec .hl] := by
    rcases hCases with rfl | rfl <;> rfl
  rw [run_of_ops hOps]
  rcases hCases with rfl | rfl <;>
    simp [State.exec, State.byte, State.setByte, State.register, State.setRegister, State.setPair,
      State.pair, State.word, BitVec.add_sub_cancel]

theorem run_toHl (hp : p ∈ [Pair.bc, .de]) (m : State) :
    run [pack 0x40 Reg.m.code 3 ||| p.halves.2.code, pack 0x03 Pair.hl.code 4,
      pack 0x40 Reg.m.code 3 ||| p.halves.1.code, pack 0x0b Pair.hl.code 4] m =
      some (m.setWord (.memory (m.pair .hl)) (m.pair p)) := by
  have hCases : p = .bc ∨ p = .de := by simpa using hp
  have hOps : ops [pack 0x40 Reg.m.code 3 ||| p.halves.2.code, pack 0x03 Pair.hl.code 4,
      pack 0x40 Reg.m.code 3 ||| p.halves.1.code, pack 0x0b Pair.hl.code 4] =
      some [.load (.register .m) (.register p.halves.2), .inc .hl,
        .load (.register .m) (.register p.halves.1), .dec .hl] := by
    rcases hCases with rfl | rfl <;> rfl
  rw [run_of_ops hOps]
  rcases hCases with rfl | rfl <;>
    simp [State.exec, State.byte, State.setByte, State.register, State.setRegister, State.setPair,
      State.pair, State.setWord, State.poke, BitVec.add_sub_cancel]

theorem run_fromIndexed (hp : p ∈ Pair.general) {low high : UInt8}
    (hNext : extended high = extended low + 1) (m : State) :
    run [x.lead, pack 0x46 p.halves.2.code 3, low, x.lead, pack 0x46 p.halves.1.code 3, high] m =
      some (m.setPair p (m.word (.memory (m.index x + extended low)))) := by
  have hOps : ops [x.lead, pack 0x46 p.halves.2.code 3, low, x.lead, pack 0x46 p.halves.1.code 3, high] =
      some [.load (.register p.halves.2) (.indexed x (extended low)),
        .load (.register p.halves.1) (.indexed x (extended high))] := by
    rcases general_cases hp with rfl | rfl | rfl <;> cases x <;> rfl
  rw [run_of_ops hOps]
  rcases general_cases hp with rfl | rfl | rfl <;> cases x <;>
    simp [State.exec, State.byte, State.setByte, State.setRegister, State.setPair, State.index,
      State.word, hNext, BitVec.add_assoc]

theorem run_toIndexed (hp : p ∈ Pair.general) {low high : UInt8}
    (hNext : extended high = extended low + 1) (m : State) :
    run [x.lead, 0x70 ||| p.halves.2.code, low, x.lead, 0x70 ||| p.halves.1.code, high] m =
      some (m.setWord (.memory (m.index x + extended low)) (m.pair p)) := by
  have hOps : ops [x.lead, 0x70 ||| p.halves.2.code, low, x.lead, 0x70 ||| p.halves.1.code, high] =
      some [.load (.indexed x (extended low)) (.register p.halves.2),
        .load (.indexed x (extended high)) (.register p.halves.1)] := by
    rcases general_cases hp with rfl | rfl | rfl <;> cases x <;> rfl
  rw [run_of_ops hOps]
  rcases general_cases hp with rfl | rfl | rfl <;> cases x <;>
    simp [State.exec, State.byte, State.setByte, State.register, State.pair, State.index,
      State.setWord, State.poke, hNext, BitVec.add_assoc]

/-- What PUSH and POP take. -/
inductive Stackable : View → Place → Prop
  | pair {p : Pair} (hp : p ∈ Pair.general) : Stackable (.pair p) (.pair p)
  | index (x : Index) : Stackable (.index x) (.index x)

/-- The bytes of PUSH and POP, by the opcode for BC. -/
def stackBytes (opcode : UInt8) : Place → List UInt8
  | .pair p => [pack opcode p.code 4]
  | .index x => [x.lead, opcode ||| 0x20]
  | .memory _ => []

/-- A word that is pushed and popped is left below the stack, besides where it is wanted. -/
theorem exec_push_pop {v : View} {target : Place} (hTarget : Stackable v target) (source : Place)
    (m : State) :
    (m.exec (.push source)).exec (.pop target) =
      (m.setWord (.memory (m.sp - 2)) (m.word source)).setWord target (m.word source) := by
  have hBack : m.sp - 2#16 + 2#16 = m.sp := BitVec.sub_add_cancel ..
  cases hTarget with
  | pair hp =>
    rcases general_cases hp with rfl | rfl | rfl <;>
      simp [State.exec, State.setWord, State.setPair, State.word, State.poke, hBack]
  | index x =>
    cases x <;> simp [State.exec, State.setWord, State.setIndex, State.word, State.poke, hBack]

theorem ops_push {v : View} {source : Place} (hSource : Stackable v source) (rest : List UInt8) :
    ops (stackBytes 0xc5 source ++ rest) = (ops rest).map (.push source :: ·) := by
  cases hSource with
  | pair hp => rcases general_cases hp with rfl | rfl | rfl <;> rfl
  | index x => cases x <;> rfl

theorem ops_pop {v : View} {target : Place} (hTarget : Stackable v target) :
    ops (stackBytes 0xc1 target) = some [.pop target] := by
  cases hTarget with
  | pair hp => rcases general_cases hp with rfl | rfl | rfl <;> rfl
  | index x => cases x <;> rfl

theorem run_overStack {v v' : View} {target source : Place} (hTarget : Stackable v target)
    (hSource : Stackable v' source) (m : State) :
    run (stackBytes 0xc5 source ++ stackBytes 0xc1 target) m =
      some ((m.setWord (.memory (m.sp - 2)) (m.word source)).setWord target (m.word source)) := by
  have hOps : ops (stackBytes 0xc5 source ++ stackBytes 0xc1 target) = some [.push source, .pop target] := by
    rw [ops_push hSource, ops_pop hTarget]
    rfl
  rw [run_of_ops hOps]
  exact congrArg some (exec_push_pop hTarget source m)

/-- A word is shifted by its bytes, where the second one takes over the carry of the first. -/
theorem Shift.apply_append {op : Shift} (hPair : op.takesPair = true) (high low : BitVec 8)
    (carry : Bool) :
    op.apply (n := 16) (high ++ low) carry =
      if op.isLeft then
        let (low', middle) := op.apply low carry
        let (high', out) := Shift.rl.apply high middle
        (high' ++ low', out)
      else
        let (high', middle) := op.apply high carry
        let (low', out) := Shift.rr.apply low middle
        (high' ++ low', out) := by
  have hSign : (high ++ low : BitVec 16).msb = high.msb := by
    show (high ++ low).msb = high.msb
    rw [BitVec.msb_append, if_neg (by decide)]
  cases op with
  | rlc | rrc | sll => cases hPair
  | rl => exact left_append high low carry
  | sla => exact left_append high low false
  | rr => exact right_append high low carry
  | srl => exact right_append high low false
  | sra =>
    refine (right_append high low _).trans ?_
    rw [Shift.fill, hSign]
    rfl

/-- The shifts that a pair is shifted by. -/
def shiftOps (op : Shift) (p : Pair) : List Op :=
  if op.isLeft then [.shift op p.halves.2, .shift .rl p.halves.1]
  else [.shift op p.halves.1, .shift .rr p.halves.2]

theorem exec_shiftOps (hp : p ∈ Pair.general) {op : Shift} (hPair : op.takesPair = true) (m : State) :
    ∃ flags : Flags, flags.carry = (op.apply (m.pair p) m.flags.carry).2 ∧
      (shiftOps op p).foldl State.exec m =
        { m.setPair p (op.apply (m.pair p) m.flags.carry).1 with flags } := by
  rcases general_cases hp with rfl | rfl | rfl <;>
  · rw [State.pair, Shift.apply_append hPair, shiftOps]
    cases op.isLeft <;>
      simp [State.exec, State.register, State.setRegister, State.setPair, shiftFlags]

end Runs

-- --------
-- Encodings
-- --------

section Encodings

variable {first second : Operand Mode} {t s : Reg} {x : Index} {d : Expr}

theorem view_registerOperand (r : Reg) (span : Span) : view (registerOperand r span) = .register r := by
  unfold registerOperand
  by_cases hMemory : r = .m
  · rw [if_pos hMemory, hMemory]
    rfl
  · rw [if_neg hMemory]
    rfl

theorem view_displaced (h : view first = .indexed x d) (offset : Value) :
    view (displaced first offset) = .indexed x (d.offsetBy offset) := by
  have hMode : first.mode = .indexed := mode_of_view h rfl
  unfold view at h
  rw [hMode] at h
  obtain ⟨rfl, rfl⟩ := View.indexed.inj h
  unfold view displaced
  rw [hMode]
  rfl

theorem native_ld_registers (setting : Setting Feature) (hFirst : view first = .register t)
    (hSecond : view second = .register s) (hNot : t ≠ .m ∨ s ≠ .m) :
    native setting ⟨.ld, first, second⟩ = .ok [.bytes [pack 0x40 t.code 3 ||| s.code]] := by
  simp only [native, loadItems, hFirst, hSecond]
  split <;> simp_all

theorem native_ld_fromIndexed (setting : Setting Feature) (hFirst : view first = .register t)
    (hSecond : view second = .indexed x d) (ht : t ≠ .m) :
    native setting ⟨.ld, first, second⟩ = .ok (indexedItems x (pack 0x46 t.code 3) d) := by
  simp only [native, loadItems, hFirst, hSecond]

theorem native_ld_toIndexed (setting : Setting Feature) (hFirst : view first = .indexed x d)
    (hSecond : view second = .register s) (hs : s ≠ .m) :
    native setting ⟨.ld, first, second⟩ = .ok (indexedItems x (0x70 ||| s.code) d) := by
  simp only [native, loadItems, hFirst, hSecond]

theorem stackItems_of_stackable {m : Mnemonic} {place : Place} (h : Stackable (view first) place) (opcode : UInt8) :
    stackItems ⟨m, first, second⟩ opcode = .ok [.bytes (stackBytes opcode place)] := by
  unfold stackItems
  generalize view first = v at h
  cases h with
  | pair hp => rcases general_cases hp with rfl | rfl | rfl <;> rfl
  | index x => rfl

theorem native_push (setting : Setting Feature) {place : Place} (h : Stackable (view first) place) :
    native setting ⟨.push, first, second⟩ = .ok [.bytes (stackBytes 0xc5 place)] := by
  have hStack : stackItems ⟨.push, first, second⟩ 0xc5 = .ok [.bytes (stackBytes 0xc5 place)] :=
    stackItems_of_stackable h 0xc5
  rw [← hStack]
  unfold native pushItems
  generalize view first = v at h
  cases h <;> rfl

/-- Two neighbouring bytes on an index register. -/
theorem linked_displacements {table : SymbolTable} {base : Value} {opcode opcode' : UInt8} {code : List UInt8}
    (h : Item.Linked table base (indexedItems x opcode d ++ indexedItems x opcode' (d.offsetBy 1)) code) :
    ∃ v low high, table.evaluate base d = .ok v ∧ extended low = v.word ∧
      extended high = extended low + 1 ∧
      code = [x.lead, opcode, low, x.lead, opcode', high] := by
  cases h with
  | bytes hFront =>
  obtain ⟨v, low, out, hLow, hWord, rfl, hBehind⟩ := hFront.of_signedByte
  cases hBehind with
  | bytes hBack =>
  obtain ⟨v', high, out', hHigh, hWord', rfl, hEnd⟩ := hBack.of_signedByte
  cases hEnd
  have hSum : table.evaluate base (d.offsetBy 1) = (table.evaluate base d).map (· + 1) :=
    Expr.evaluate_offsetBy ..
  rw [hSum, hLow] at hHigh
  obtain rfl := Except.ok.inj hHigh
  refine ⟨v, low, high, hLow, hWord, ?_, rfl⟩
  rw [hWord', Value.word_add, hWord]
  rfl

end Encodings

-- --------
-- Expansions
-- --------

section Expansions

variable {i : Instr} {setting : Setting Feature}

theorem ne_sp_of_general {p : Pair} (hp : p ∈ Pair.general) : p ≠ .sp := by
  rcases general_cases hp with rfl | rfl | rfl <;> decide

theorem isGeneral_of_general {p : Pair} (hp : p ∈ Pair.general) : p.isGeneral = true := by
  rcases general_cases hp with rfl | rfl | rfl <;> decide

theorem avoidsHl_of_mem {p : Pair} (hp : p ∈ [Pair.bc, .de]) : p.avoidsHl = true := by
  have hAll : ∀ q ∈ [Pair.bc, .de], q.avoidsHl = true := by decide
  exact hAll p hp

theorem halves_ne_m {p : Pair} (hp : p ∈ Pair.general) : p.halves.1 ≠ .m ∧ p.halves.2 ≠ .m := by
  rcases general_cases hp with rfl | rfl | rfl <;> decide

theorem general_of_view {o : Operand Mode} {p : Pair} (hFits : o.Fits shape) (hView : view o = .pair p)
    (hNot : p ≠ .sp) : p ∈ Pair.general := by
  rcases pair_of_view hFits hView with rfl | rfl | rfl | rfl
  · decide
  · decide
  · decide
  · exact absurd rfl hNot

theorem isSome_copyPair (hFits : i.Fits shape) (h : (copyPair i).isSome) :
    ByteLoad (view i.first) (view i.second) ∨ StackLoad (view i.first) (view i.second) := by
  have hFirst {p : Pair} := general_of_view (p := p) hFits.first
  have hSecond {p : Pair} := general_of_view (p := p) hFits.second
  unfold copyPair at h
  split at h
  · next t s hTarget hSource =>
    split at h
    · cases h
    · next hNot =>
      obtain ⟨ht, hs⟩ := not_or.mp hNot
      rw [hTarget, hSource]
      exact .inl (.copy (hFirst hTarget ht) (hSecond hSource hs))
  · next p x hTarget hSource =>
    split at h
    · cases h
    · next hNot =>
      rw [hTarget, hSource]
      exact .inr (.toPair (hFirst hTarget hNot))
  · next x p hTarget hSource =>
    split at h
    · cases h
    · next hNot =>
      rw [hTarget, hSource]
      exact .inr (.toIndex (hSecond hSource hNot))
  · next x y hTarget hSource =>
    rw [hTarget, hSource]
    exact .inr .copy
  · cases h

theorem isSome_movePair (hFits : i.Fits shape) (h : (movePair i).isSome) :
    ByteLoad (view i.first) (view i.second) := by
  have hAvoids {p : Pair} (hPair : p = .bc ∨ p = .de ∨ p = .hl ∨ p = .sp) (hAvoids : p.avoidsHl = true) :
      p ∈ [Pair.bc, .de] := by
    rcases hPair with rfl | rfl | rfl | rfl <;> revert hAvoids <;> decide
  unfold movePair at h
  split at h
  · next p hTarget hSource =>
    split at h
    · next hNot =>
      rw [hTarget, hSource]
      exact .fromHl (hAvoids (pair_of_view hFits.first hTarget) hNot)
    · cases h
  · next p hTarget hSource =>
    split at h
    · next hNot =>
      rw [hTarget, hSource]
      exact .toHl (hAvoids (pair_of_view hFits.second hSource) hNot)
    · cases h
  · cases h

theorem isSome_moveIndexed (hFits : i.Fits shape) (h : (moveIndexed i).isSome) :
    ByteLoad (view i.first) (view i.second) := by
  have hGeneral {p : Pair} (hPair : p = .bc ∨ p = .de ∨ p = .hl ∨ p = .sp) (hGeneral : p.isGeneral = true) :
      p ∈ Pair.general := by
    rcases hPair with rfl | rfl | rfl | rfl <;> revert hGeneral <;> decide
  unfold moveIndexed at h
  split at h
  · next p x d hTarget hSource =>
    split at h
    · next hNot =>
      rw [hTarget, hSource]
      exact .fromIndexed (hGeneral (pair_of_view hFits.first hTarget) hNot)
    · cases h
  · next x d p hTarget hSource =>
    split at h
    · next hNot =>
      rw [hTarget, hSource]
      exact .toIndexed (hGeneral (pair_of_view hFits.second hSource) hNot)
    · cases h
  · cases h

theorem expansion?_ld (hMnemonic : i.mnemonic = .ld) :
    expansion? setting i = (copyPair i <|> movePair i <|> moveIndexed i).map (⟨true, false, ·⟩) := by
  unfold expansion?
  rw [hMnemonic]

/-- The loads that are expanded. -/
theorem isSome_expansion?_ld (hFits : i.Fits shape) (hMnemonic : i.mnemonic = .ld) :
    (expansion? setting i).isSome ↔
      ByteLoad (view i.first) (view i.second) ∨ StackLoad (view i.first) (view i.second) := by
  constructor
  · intro h
    have hSome : (copyPair i).isSome ∨ (movePair i).isSome ∨ (moveIndexed i).isSome := by
      simpa [expansion?_ld hMnemonic] using h
    rcases hSome with h | h | h
    · exact isSome_copyPair hFits h
    · exact .inl (isSome_movePair hFits h)
    · exact .inl (isSome_moveIndexed hFits h)
  · intro h
    rw [expansion?_ld hMnemonic]
    unfold copyPair movePair moveIndexed
    generalize view i.first = v, view i.second = v' at h
    obtain h | h := h
    · cases h with
      | copy ht hs => simp [ne_sp_of_general ht, ne_sp_of_general hs]
      | fromHl hp | toHl hp => simp [avoidsHl_of_mem hp]
      | fromIndexed hp | toIndexed hp => simp [isGeneral_of_general hp]
    · cases h with
      | toPair hp | toIndex hp => simp [ne_sp_of_general hp]
      | copy => rfl

variable {site : Site Feature} {a e : Encoder} {table : SymbolTable}
  {base start : Value} {code : List UInt8}

section Code

variable (hFinish : Encoder.finish family site i a = .ok () e)
  (hPlaced : Encoder.Placed table base a e start code)

include hFinish hPlaced

theorem code_of_copy (hMnemonic : i.mnemonic = .ld) {t s : Pair} (hTarget : view i.first = .pair t)
    (hSource : view i.second = .pair s) (ht : t ∈ Pair.general) (hs : s ∈ Pair.general) :
    code = [pack 0x40 t.halves.1.code 3 ||| s.halves.1.code,
      pack 0x40 t.halves.2.code 3 ||| s.halves.2.code] := by
  have hExpansion (setting : Setting Feature) : expansion? setting i = some ⟨true, false,
      [part .ld (registerOperand t.halves.1 i.first.span) (registerOperand s.halves.1 i.first.span),
       part .ld (registerOperand t.halves.2 i.first.span) (registerOperand s.halves.2 i.first.span)]⟩ := by
    simp [expansion?_ld hMnemonic, copyPair, hTarget, hSource, ne_sp_of_general ht, ne_sp_of_general hs]
  have hLinked := hPlaced.linked_fixed hFinish (hExpansion _)
    (.native (native_ld_registers · (view_registerOperand ..) (view_registerOperand ..)
        (.inl (halves_ne_m ht).1))
      (.native (native_ld_registers · (view_registerOperand ..) (view_registerOperand ..)
        (.inl (halves_ne_m ht).2)) .nil))
  exact Item.Linked.of_bytes [[_], [_]] hLinked

theorem code_of_fromHl (hMnemonic : i.mnemonic = .ld) {p : Pair} (hTarget : view i.first = .pair p)
    (hSource : view i.second = .register .m) (hp : p ∈ [Pair.bc, .de]) :
    code = [pack 0x40 p.halves.2.code 3 ||| Reg.m.code, pack 0x03 Pair.hl.code 4,
      pack 0x40 p.halves.1.code 3 ||| Reg.m.code, pack 0x0b Pair.hl.code 4] := by
  have hGeneral : p ∈ Pair.general := List.mem_append_left [Pair.hl] hp
  have hExpansion (setting : Setting Feature) : expansion? setting i = some ⟨true, false,
      [part .ld (registerOperand p.halves.2 i.first.span) i.second,
       part .inc (.withRegister .pair Pair.hl.code i.second.span) (.bare .none i.first.span),
       part .ld (registerOperand p.halves.1 i.first.span) i.second,
       part .dec (.withRegister .pair Pair.hl.code i.second.span) (.bare .none i.first.span)]⟩ := by
    simp [expansion?_ld hMnemonic, copyPair, movePair, hTarget, hSource, avoidsHl_of_mem hp]
  have hLinked := hPlaced.linked_fixed hFinish (hExpansion _)
    (.native (native_ld_registers · (view_registerOperand ..) hSource (.inl (halves_ne_m hGeneral).2))
      (.native (fun _ => rfl)
        (.native (native_ld_registers · (view_registerOperand ..) hSource (.inl (halves_ne_m hGeneral).1))
          (.native (fun _ => rfl) .nil))))
  exact Item.Linked.of_bytes [[_], [_], [_], [_]] hLinked

theorem code_of_toHl (hMnemonic : i.mnemonic = .ld) {p : Pair} (hTarget : view i.first = .register .m)
    (hSource : view i.second = .pair p) (hp : p ∈ [Pair.bc, .de]) :
    code = [pack 0x40 Reg.m.code 3 ||| p.halves.2.code, pack 0x03 Pair.hl.code 4,
      pack 0x40 Reg.m.code 3 ||| p.halves.1.code, pack 0x0b Pair.hl.code 4] := by
  have hGeneral : p ∈ Pair.general := List.mem_append_left [Pair.hl] hp
  have hExpansion (setting : Setting Feature) : expansion? setting i = some ⟨true, false,
      [part .ld i.first (registerOperand p.halves.2 i.first.span),
       part .inc (.withRegister .pair Pair.hl.code i.first.span) (.bare .none i.first.span),
       part .ld i.first (registerOperand p.halves.1 i.first.span),
       part .dec (.withRegister .pair Pair.hl.code i.first.span) (.bare .none i.first.span)]⟩ := by
    simp [expansion?_ld hMnemonic, copyPair, movePair, hTarget, hSource, avoidsHl_of_mem hp]
  have hLinked := hPlaced.linked_fixed hFinish (hExpansion _)
    (.native (native_ld_registers · hTarget (view_registerOperand ..) (.inr (halves_ne_m hGeneral).2))
      (.native (fun _ => rfl)
        (.native (native_ld_registers · hTarget (view_registerOperand ..) (.inr (halves_ne_m hGeneral).1))
          (.native (fun _ => rfl) .nil))))
  exact Item.Linked.of_bytes [[_], [_], [_], [_]] hLinked

theorem code_of_fromIndexed (hMnemonic : i.mnemonic = .ld) {p : Pair} {x : Index} {d : Expr}
    (hTarget : view i.first = .pair p) (hSource : view i.second = .indexed x d) (hp : p ∈ Pair.general) :
    ∃ v low high, table.evaluate base d = .ok v ∧ extended low = v.word ∧
      extended high = extended low + 1 ∧
      code = [x.lead, pack 0x46 p.halves.2.code 3, low, x.lead, pack 0x46 p.halves.1.code 3, high] := by
  have hExpansion (setting : Setting Feature) : expansion? setting i = some ⟨true, false,
      [part .ld (registerOperand p.halves.2 i.first.span) i.second,
       part .ld (registerOperand p.halves.1 i.first.span) (displaced i.second 1)]⟩ := by
    simp [expansion?_ld hMnemonic, copyPair, movePair, moveIndexed, hTarget, hSource, isGeneral_of_general hp]
  have hLinked := hPlaced.linked_fixed hFinish (hExpansion _)
    (.native (native_ld_fromIndexed · (view_registerOperand ..) hSource (halves_ne_m hp).2)
      (.native (native_ld_fromIndexed · (view_registerOperand ..) (view_displaced hSource 1)
        (halves_ne_m hp).1) .nil))
  exact linked_displacements hLinked

theorem code_of_toIndexed (hMnemonic : i.mnemonic = .ld) {p : Pair} {x : Index} {d : Expr}
    (hTarget : view i.first = .indexed x d) (hSource : view i.second = .pair p) (hp : p ∈ Pair.general) :
    ∃ v low high, table.evaluate base d = .ok v ∧ extended low = v.word ∧
      extended high = extended low + 1 ∧
      code = [x.lead, 0x70 ||| p.halves.2.code, low, x.lead, 0x70 ||| p.halves.1.code, high] := by
  have hExpansion (setting : Setting Feature) : expansion? setting i = some ⟨true, false,
      [part .ld i.first (registerOperand p.halves.2 i.first.span),
       part .ld (displaced i.first 1) (registerOperand p.halves.1 i.first.span)]⟩ := by
    simp [expansion?_ld hMnemonic, copyPair, movePair, moveIndexed, hTarget, hSource, isGeneral_of_general hp]
  have hLinked := hPlaced.linked_fixed hFinish (hExpansion _)
    (.native (native_ld_toIndexed · hTarget (view_registerOperand ..) (halves_ne_m hp).2)
      (.native (native_ld_toIndexed · (view_displaced hTarget 1) (view_registerOperand ..)
        (halves_ne_m hp).1) .nil))
  exact linked_displacements hLinked

theorem code_of_stackLoad (hMnemonic : i.mnemonic = .ld) (h : StackLoad (view i.first) (view i.second)) :
    ∃ target source, Stackable (view i.first) target ∧ Stackable (view i.second) source ∧
      code = stackBytes 0xc5 source ++ stackBytes 0xc1 target := by
  have hExpansion (setting : Setting Feature) : expansion? setting i = some ⟨true, false,
      [part .push i.second (.bare .none i.first.span), part .pop i.first (.bare .none i.first.span)]⟩ := by
    rw [expansion?_ld hMnemonic]
    unfold copyPair
    generalize view i.first = v, view i.second = v' at h
    cases h with
    | toPair hp => simp [ne_sp_of_general hp]
    | toIndex hp => simp [ne_sp_of_general hp]
    | copy => rfl
  obtain ⟨target, source, hTarget, hSource⟩ : ∃ target source,
      Stackable (view i.first) target ∧ Stackable (view i.second) source := by
    generalize view i.first = v, view i.second = v' at h
    cases h with
    | toPair hp => exact ⟨_, _, .pair hp, .index _⟩
    | toIndex hp => exact ⟨_, _, .index _, .pair hp⟩
    | copy => exact ⟨_, _, .index _, .index _⟩
  have hLinked := hPlaced.linked_fixed hFinish (hExpansion _)
    (.native (native_push · hSource) (.native (fun _ => stackItems_of_stackable hTarget 0xc1) .nil))
  refine ⟨target, source, hTarget, hSource, ?_⟩
  rw [Item.Linked.of_bytes [_, _] hLinked]
  simp

/-- The code of a shift that takes a pair. -/
theorem ops_of_shift {op : Shift} (hMnemonic : i.mnemonic = .shift op) {p : Pair}
    (hView : view i.first = .pair p) (hp : p ∈ Pair.general) : ops code = some (shiftOps op p) := by
  have hShift (setting : Setting Feature) : expansion? setting i =
      (shiftPair i op).map (⟨true, false, ·⟩) := by
    unfold expansion?
    rw [hMnemonic]
  have hNative (op : Shift) (r : Reg) (setting : Setting Feature) :
      native setting ⟨.shift op, registerOperand r i.first.span, .bare .none i.first.span⟩ =
        .ok [.bytes [0xcb, op.opcode ||| r.code]] := by
    simp only [native, shiftItems, view_registerOperand]
  unfold shiftOps
  cases hLeft : op.isLeft with
  | true =>
    have hExpansion (setting : Setting Feature) : expansion? setting i = some ⟨true, false,
        [part (.shift op) (registerOperand p.halves.2 i.first.span) (.bare .none i.first.span),
         part (.shift .rl) (registerOperand p.halves.1 i.first.span) (.bare .none i.first.span)]⟩ := by
      simp [hShift, shiftPair, hView, ne_sp_of_general hp, hLeft]
    have hLinked := hPlaced.linked_fixed hFinish (hExpansion _)
      (.native (hNative op p.halves.2) (.native (hNative .rl p.halves.1) .nil))
    rw [Item.Linked.of_bytes [[_, _], [_, _]] hLinked]
    rcases general_cases hp with rfl | rfl | rfl <;> cases op <;> rfl
  | false =>
    have hExpansion (setting : Setting Feature) : expansion? setting i = some ⟨true, false,
        [part (.shift op) (registerOperand p.halves.1 i.first.span) (.bare .none i.first.span),
         part (.shift .rr) (registerOperand p.halves.2 i.first.span) (.bare .none i.first.span)]⟩ := by
      simp [hShift, shiftPair, hView, ne_sp_of_general hp, hLeft]
    have hLinked := hPlaced.linked_fixed hFinish (hExpansion _)
      (.native (hNative op p.halves.1) (.native (hNative .rr p.halves.2) .nil))
    rw [Item.Linked.of_bytes [[_, _], [_, _]] hLinked]
    rcases general_cases hp with rfl | rfl | rfl <;> cases op <;> rfl

/-- A load by bytes does what a load of the word would do. -/
theorem loadsWord_byteLoad (hMnemonic : i.mnemonic = .ld) (h : ByteLoad (view i.first) (view i.second)) :
    LoadsWord table base code (view i.first) (view i.second) fun m _ => m := by
  intro m
  suffices hRun : ∃ place place', Selects table base m (view i.first) place ∧
      Selects table base m (view i.second) place' ∧
      run code m = some (m.setWord place (m.word place')) by
    obtain ⟨place, place', hPlace, hPlace', hRun⟩ := hRun
    exact ⟨place, place', _, hPlace, hPlace', hRun, State.word_setWord .., rfl⟩
  generalize hTarget : view i.first = v, hSource : view i.second = v' at h
  cases h with
  | copy ht hs =>
    rw [code_of_copy hFinish hPlaced hMnemonic hTarget hSource ht hs]
    exact ⟨_, _, .pair _, .pair _, run_copy ht hs m⟩
  | fromHl hp =>
    rw [code_of_fromHl hFinish hPlaced hMnemonic hTarget hSource hp]
    exact ⟨_, _, .pair _, .hl, run_fromHl hp m⟩
  | toHl hp =>
    rw [code_of_toHl hFinish hPlaced hMnemonic hTarget hSource hp]
    exact ⟨_, _, .hl, .pair _, run_toHl hp m⟩
  | fromIndexed hp =>
    obtain ⟨v, low, high, hValue, hLow, hHigh, rfl⟩ :=
      code_of_fromIndexed hFinish hPlaced hMnemonic hTarget hSource hp
    exact ⟨_, _, .pair _, .indexed hValue, hLow ▸ run_fromIndexed hp hHigh m⟩
  | toIndexed hp =>
    obtain ⟨v, low, high, hValue, hLow, hHigh, rfl⟩ :=
      code_of_toIndexed hFinish hPlaced hMnemonic hTarget hSource hp
    exact ⟨_, _, .indexed hValue, .pair _, hLow ▸ run_toIndexed hp hHigh m⟩

/-- A load over the stack does what a load of the word would do, but for two bytes below the stack. -/
theorem loadsWord_stackLoad (hMnemonic : i.mnemonic = .ld)
    (h : StackLoad (view i.first) (view i.second)) :
    LoadsWord table base code (view i.first) (view i.second) fun m w =>
      m.setWord (.memory (m.sp - 2)) w := by
  intro m
  have hSelects {v : View} {place : Place} (hPlace : Stackable v place) : Selects table base m v place := by
    cases hPlace with
    | pair _ => exact .pair _
    | index _ => exact .index _
  obtain ⟨place, place', hPlace, hPlace', rfl⟩ := code_of_stackLoad hFinish hPlaced hMnemonic h
  exact ⟨place, place', _, hSelects hPlace, hSelects hPlace', run_overStack hPlace hPlace' m,
    State.word_setWord .., rfl⟩

theorem shiftsWord_shift {op : Shift} (hMnemonic : i.mnemonic = .shift op) {p : Pair}
    (hView : view i.first = .pair p) (hp : p ∈ Pair.general) (hPair : op.takesPair = true) :
    ShiftsWord code op p := by
  intro m
  obtain ⟨flags, hCarry, hState⟩ := exec_shiftOps hp hPair m
  have hResult : State.pair { m.setPair p (op.apply (m.pair p) m.flags.carry).1 with flags } p =
      (op.apply (m.pair p) m.flags.carry).1 := State.pair_setPair ..
  refine ⟨_, run_of_ops (ops_of_shift hFinish hPlaced hMnemonic hView hp) m, ?_, ?_⟩
  · rw [hState]
    exact Prod.ext hResult hCarry
  · rw [hState, hResult]

end Code

/-- A shift of a pair that is accepted is one that can be continued, of a pair with halves. -/
theorem accepted_shift (hFinish : Encoder.finish family site i a = .ok () e) {op : Shift}
    (hMnemonic : i.mnemonic = .shift op) {p : Pair} (hFits : i.Fits shape)
    (hView : view i.first = .pair p) :
    op.takesPair = true ∧ p ∈ Pair.general := by
  have hMode := Encoder.mode_of_finish hFinish
  rw [mode_of_view hView rfl, hMnemonic] at hMode
  refine ⟨?_, general_of_view hFits.first hView ?_⟩
  · revert hMode
    cases op <;> decide
  · rintro rfl
    have hNone : family.expansion? (Encoder.setting site a) i = none := by
      show expansion? _ i = none
      unfold expansion?
      simp [hMnemonic, shiftPair, hView]
    obtain ⟨items, hItems, -⟩ := Encoder.native_of_finish hFinish hNone
    have hError : native (Encoder.setting site a) i = .error (unencodable i) := by
      unfold native
      simp only [hMnemonic, shiftItems, hView]
    cases hError.symm.trans hItems

end Expansions

-- --------
-- Programs
-- --------

/-- **Synthesized code acts on words.** In every program that assembles and links, the bytes of an expanded
load or shift do to a word what the statement says, from every state of the processor. A load changes nothing
else, except that one over the stack leaves the word below the stack pointer. -/
theorem synthesized_code_acts_on_words {machine : Machine Feature} {policy : Policy} {source : String}
    {p : Program} {base : Value} {blocks : List Block} {s : Assembly Feature} {w : Pending Mnemonic Feature}
    (hAssembled : (family.assemble machine policy source).result = .ok p)
    (hLinked : p.linkSections base = .ok blocks)
    (hs : s ∈ family.states machine policy source) (hw : Assembly.pending? family s = some w) :
    ∃ i start code, family.Emits p blocks s w i start code ∧
      (w.mnemonic = .ld →
        ((expansion? (Encoder.setting (w.site policy) w.encoder) i).isSome ↔
          ByteLoad (view i.first) (view i.second) ∨ StackLoad (view i.first) (view i.second)) ∧
        (ByteLoad (view i.first) (view i.second) →
          LoadsWord p.symbols base code (view i.first) (view i.second) fun m _ => m) ∧
        (StackLoad (view i.first) (view i.second) →
          LoadsWord p.symbols base code (view i.first) (view i.second) fun m word =>
            m.setWord (.memory (m.sp - 2)) word)) ∧
      ∀ op q, w.mnemonic = .shift op → view i.first = .pair q →
        op ∈ [.sla, .sra, .srl, .rl, .rr] ∧ q ∈ Pair.general ∧ ShiftsWord code op q := by
  obtain ⟨i, start, code, e, hEmits, hFinish, hPlaced⟩ :=
    Family.emitted_instruction hAssembled hLinked hs hw
  obtain ⟨c, hOperands, -⟩ := hEmits.operands
  obtain ⟨hFits, -⟩ := Family.HasShape.z80.fits_of_resolveOperands hOperands
  have hFits : i.Fits shape := ⟨hFits.first, hFits.second⟩
  refine ⟨i, start, code, hEmits, ?_, ?_⟩
  · intro hLoad
    have hMnemonic : i.mnemonic = .ld := hEmits.mnemonic.trans hLoad
    exact ⟨isSome_expansion?_ld hFits hMnemonic, loadsWord_byteLoad hFinish hPlaced hMnemonic,
      loadsWord_stackLoad hFinish hPlaced hMnemonic⟩
  · intro op q hShift hView
    have hMnemonic : i.mnemonic = .shift op := hEmits.mnemonic.trans hShift
    obtain ⟨hPair, hq⟩ := accepted_shift hFinish hMnemonic hFits hView
    refine ⟨?_, hq, shiftsWord_shift hFinish hPlaced hMnemonic hView hq hPair⟩
    revert hPair
    cases op <;> decide

set_option maxRecDepth 10000 in
/-- A load of DE through IY. The displacement is defined behind it. -/
theorem synthesized_code_acts_on_words_de :
    ∃ p blocks s w i start code,
      (family.assemble { features := {.z80} } {} "ld de,(iy+off)\noff = 5\n").result = .ok p ∧
      p.linkSections 0x1000 = .ok blocks ∧
      s ∈ family.states { features := {.z80} } {} "ld de,(iy+off)\noff = 5\n" ∧
      Assembly.pending? family s = some w ∧ w.mnemonic = .ld ∧
      family.Emits p blocks s w i start code ∧
      ∀ m, run code m = some (m.setPair .de (m.word (.memory (m.iy + 5)))) := by
  have hLinks : ((family.assemble { features := {.z80} } {} "ld de,(iy+off)\noff = 5\n").result.toOption.any
      fun p => (p.linkSections 0x1000).toOption.isSome) = true := by decide +kernel
  have hFive : ((family.assemble { features := {.z80} } {} "ld de,(iy+off)\noff = 5\n").result.toOption.any
      fun p => decide ((p.symbols.evaluate 0x1000 (.symbol "off" ⟨10, 3⟩)).toOption = some 5)) = true := by
    decide +kernel
  have hStates : (family.states { features := {.z80} } {} "ld de,(iy+off)\noff = 5\n").any (fun s =>
      (Assembly.pending? family s).any fun w => decide (w.mnemonic = .ld) &&
        (w.operands family).toOption.any fun found => decide (view found.1 = .pair .de ∧
          view found.2.1 = .indexed .iy (.symbol "off" ⟨10, 3⟩))) = true := by
    decide +kernel
  obtain ⟨p, blocks, s, w, hAssembled, hLinked, hs, hw, hCheck⟩ :=
    Family.exists_pending_of_check hLinks hStates
  rw [hAssembled] at hFive
  simp only [Bool.and_eq_true, decide_eq_true_eq, Option.any_eq_true] at hCheck
  obtain ⟨hMnemonic, found, hFound, hFirst, hSecond⟩ := hCheck
  obtain ⟨i, start, code, hEmits, hLoads, -⟩ :=
    synthesized_code_acts_on_words hAssembled hLinked hs hw
  refine ⟨p, blocks, s, w, i, start, code, hAssembled, hLinked, hs, hw, hMnemonic, hEmits, fun m => ?_⟩
  obtain ⟨c, hOperands, -⟩ := hEmits.operands
  obtain rfl := Except.ok.inj ((Action.ok_of_toOption hFound).symm.trans hOperands)
  have hByteLoad : ByteLoad (view i.first) (view i.second) := by
    rw [hFirst, hSecond]
    exact .fromIndexed (by decide)
  obtain ⟨place, place', m', hPlace, hPlace', hRun, -, rfl⟩ := (hLoads hMnemonic).2.1 hByteLoad m
  rw [hFirst] at hPlace
  rw [hSecond] at hPlace'
  cases hPlace
  cases hPlace' with
  | indexed hValue =>
    obtain rfl := Except.ok.inj (hValue.symm.trans (Action.ok_of_toOption (of_decide_eq_true hFive)))
    exact hRun

end CrossAsm.Z80
