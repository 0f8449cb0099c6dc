import CrossAsm.Instruction
import CrossAsm.Policy

/-!
# CrossAsm — encoding a statement

The encoder is the output of one statement while it is being written: the section, the symbols, the
diagnostics reported and what was counted. An action that fails keeps what it wrote before; whoever
runs the statement decides whether to go back.

An instruction passes the same checks whether it stands in the source or is a part of an expansion:
its features, the modes of its operands and the features of those modes.
-/

namespace CrossAsm

/-- What a statement is encoded under. -/
structure Site (Feature : Type) where
  machine : Machine Feature
  policy : Policy
  /-- The source location of the statement. -/
  span : Span

/-- The output of a statement so far. -/
structure Encoder where
  output : Section
  symbols : SymbolTable
  /-- Warnings and advice, in order. -/
  reported : List Diagnostic := []
  /-- Instructions encoded so far, parts of expansions included. -/
  instructions : Nat := 0
  /-- Whether an instruction was synthesized. -/
  synthesized : Bool := false
deriving DecidableEq, Repr

/-- An action of the encoder; it fails with a diagnostic and keeps its state then. -/
abbrev Encode := EStateM Diagnostic Encoder

namespace Encoder

-- --------
-- Writing
-- --------

/-- Fails with the error of a result. -/
def require {α : Type} : Except Diagnostic α → Encode α
  | .ok a => pure a
  | .error d => throw d

/-- Appends bytes. -/
def emit (bytes : List UInt8) : Encode Unit := modify fun e => { e with output := e.output.emit bytes }

/-- Appends a value; a constant must fit its width. -/
def emitValue (e : Expr) (w : Width) : Encode Unit := do
  let checked ← require (e.checkRange w.low w.high)
  modify fun s => { s with output := s.output.emitExpr checked w }

/-- Appends a value cut to its width on purpose. -/
def emitTruncated (e : Expr) (w : Width) : Encode Unit :=
  modify fun s => { s with output := s.output.emitExpr (e.mask w.bits) w }

/-- Appends an item. -/
def emitItem : Item → Encode Unit
  | .bytes bytes => emit bytes
  | .value e w => emitValue e w

/-- Hands out a made-up label. -/
def freshLabel : Encode String := do
  let s ← get
  set { s with symbols := s.symbols.mint }
  return s.symbols.nextLabel

/-- Defines a label at the current position. -/
def bindLabel (label : String) (span : Span) : Encode Unit := do
  let s ← get
  let symbols ← require (s.symbols.define label (s.output.positionExpr span) span)
  set { s with symbols }

/-- Reports a diagnostic, or fails with it if the policy says so. -/
def report (policy : Policy) (d : Diagnostic) : Encode Unit := do
  let reported ← require (policy.judge d)
  modify fun s => { s with reported := s.reported ++ reported }

-- --------
-- Instructions
-- --------

variable {Mnemonic Mode Feature : Type} [DecidableEq Mode] [Flag Mode] [Flag Feature]

/-- Fails unless synthesis is allowed, and notes that it took place. -/
def requireSynthesis (F : Family Mnemonic Mode Feature) (site : Site Feature) (m : Mnemonic) :
    Encode Unit :=
  if site.machine.synthesis then modify fun s => { s with synthesized := true }
  else throw (.synthesisDisabled (F.display m) site.span)

/-- The features an instruction needs have to be active. -/
def checkFeatures (F : Family Mnemonic Mode Feature) (site : Site Feature) (m : Mnemonic) :
    Except Diagnostic Unit :=
  let required := (F.entry m).requires
  if site.machine.supports required then .ok ()
  else .error (.unsupportedInstruction (F.display m) required.text site.machine.features.text site.span)

/-- An operand has to be of an allowed mode, whose features have to be active. -/
def checkOperand (F : Family Mnemonic Mode Feature) (site : Site Feature) (m : Mnemonic) (index : Nat)
    (allowed : FlagSet Mode) (o : Operand Mode) : Except Diagnostic Unit :=
  if o.mode ∉ allowed then .error (.invalidMode (F.display m) index allowed.labels o.span)
  else
    let required := F.modeRequires o.mode
    if site.machine.supports required then .ok ()
    else .error (.unsupportedMode (Flag.label o.mode) required.text o.span)

/-- Both operands have to pass, the first one first. -/
def checkOperands (F : Family Mnemonic Mode Feature) (site : Site Feature)
    (i : Instruction Mnemonic Mode) : Except Diagnostic Unit :=
  let entry := F.entry i.mnemonic
  match checkOperand F site i.mnemonic 0 entry.first i.first with
  | .error d => .error d
  | .ok () =>
    match entry.second with
    | none => .ok ()
    | some allowed => checkOperand F site i.mnemonic 1 allowed i.second

/-- What an encoding depends on at this point of the output. -/
def setting (site : Site Feature) (s : Encoder) : Setting Feature where
  features := site.machine.features
  counter := s.output.positionExpr site.span
  label := .symbol s.symbols.nextLabel site.span

/-- Counts one more instruction. -/
def count : Encode Unit := modify fun s => { s with instructions := s.instructions + 1 }

/-- Writes a native instruction. -/
def writeNative (F : Family Mnemonic Mode Feature) (site : Site Feature)
    (i : Instruction Mnemonic Mode) : Encode Unit := do
  let items ← require (F.native (setting site (← get)) i)
  items.forM emitItem

/-- A native instruction as a part of an expansion. -/
def encodeNative (F : Family Mnemonic Mode Feature) (site : Site Feature)
    (i : Instruction Mnemonic Mode) : Encode Unit := do
  require (checkFeatures F site i.mnemonic)
  require (checkOperands F site i)
  count
  writeNative F site i

/-- Takes a step of an expansion whose made-up label is `label`. -/
def encodePart (F : Family Mnemonic Mode Feature) (site : Site Feature) (label : String) :
    Part Mnemonic Mode → Encode Unit
  | .bytes bytes => emit bytes
  | .check e low high => do discard (require (e.checkRange low high))
  | .native i => encodeNative F site i
  | .label => bindLabel label site.span

/-- Writes an expanded instruction. -/
def writeExpansion (F : Family Mnemonic Mode Feature) (site : Site Feature) (m : Mnemonic)
    (x : Expansion Mnemonic Mode) : Encode Unit := do
  if x.synthesized then requireSynthesis F site m
  let label ← if x.labelled then freshLabel else pure ""
  x.parts.forM (encodePart F site label)

/-- Writes an instruction whose features were checked. -/
def finish (F : Family Mnemonic Mode Feature) (site : Site Feature) (i : Instruction Mnemonic Mode) :
    Encode Unit := do
  require (checkOperands F site i)
  count
  match F.expansion? (setting site (← get)) i with
  | some x => writeExpansion F site i.mnemonic x
  | none => writeNative F site i

/-- Encodes an instruction with resolved operands. -/
def encode (F : Family Mnemonic Mode Feature) (site : Site Feature) (i : Instruction Mnemonic Mode) :
    Encode Unit := do
  require (checkFeatures F site i.mnemonic)
  finish F site i

-- --------
-- Instructions of the source
-- --------

/-- The result, unless there was a problem; the first one counts. -/
def settle {α : Type} (problems : List Diagnostic) (a : α) : Except Diagnostic α :=
  match problems with
  | [] => .ok a
  | d :: _ => .error d

/-- Resolves the operands of an instruction from the source. A problem met on the way explains a
failure better than the mode, and fails the instruction even if its operands were recognised. -/
def resolveOperands (F : Family Mnemonic Mode Feature) (machine : Machine Feature) (scope : Scope)
    (m : Mnemonic) (implied : Option Nat) (c : Cursor) :
    Except Diagnostic (Operand Mode × Operand Mode × Cursor) :=
  let entry := F.entry m
  let absent : Operand Mode := .bare F.noOperand c.peek.span
  match F.resolve scope machine ⟨entry.first, entry.immediate, implied⟩ c with
  | ⟨none, problems⟩ =>
    .error (problems.head?.getD (.invalidMode (F.display m) 0 entry.first.labels c.operandSpan))
  | ⟨some (first, c'), problems⟩ =>
    match entry.second with
    | none => settle problems (first, absent, c')
    | some allowed =>
      match c'.eat? (.mark .comma) with
      | none =>
        if F.noOperand ∈ allowed then settle problems (first, absent, c')
        else .error (.missingOperand (F.display m) 1 c'.peek.span)
      | some (_, c'') =>
        match F.resolve scope machine ⟨allowed, entry.immediate, implied⟩ c'' with
        | ⟨none, more⟩ =>
          .error ((problems ++ more).head?.getD
            (.invalidMode (F.display m) 1 allowed.labels c''.operandSpan))
        | ⟨some (second, c'''), more⟩ => settle (problems ++ more) (first, second, c''')

/-- Encodes an instruction of the source, whose operands start at the cursor, and gives the cursor
behind them. -/
def dispatch (F : Family Mnemonic Mode Feature) (site : Site Feature) (m : Mnemonic)
    (implied : Option Nat) (c : Cursor) : Encode Cursor := do
  require (checkFeatures F site m)
  let s ← get
  let scope : Scope := ⟨s.symbols, s.output.positionExpr site.span, F.isReserved⟩
  let (first, second, c') ← require (resolveOperands F site.machine scope m implied c)
  finish F site ⟨m, first, second⟩
  return c'

end Encoder

end CrossAsm
