import CrossAsm.Encoder
import CrossAsm.Program

/-!
# CrossAsm — the state of an assembly run

A run keeps its state across failing statements: symbols, machine and regions that a statement changed
before it failed stay changed, and only its output is taken back.
-/

namespace CrossAsm

/-- What stays the same during a run. -/
structure Job (Mnemonic Mode Feature : Type) where
  family : Family Mnemonic Mode Feature
  policy : Policy := {}
  /-- The byte offsets of the newlines of the source. -/
  newlines : List Nat := []

/-- The state of a run. -/
structure Assembly (Feature : Type) where
  machine : Machine Feature
  /-- The regions in front of the current one. -/
  earlier : List Region := []
  /-- The region that output goes to. -/
  current : Region := {}
  symbols : SymbolTable := {}
  listing : List ListingLine := []
  /-- The errors of failed statements, in order. -/
  errors : List Diagnostic := []
  /-- Warnings and advice, in order. -/
  reported : List Diagnostic := []
  /-- What is still to be assembled. -/
  cursor : Cursor

/-- An action on the state; it fails with a diagnostic and keeps its state then. -/
abbrev Assemble (Feature : Type) := EStateM Diagnostic (Assembly Feature)

namespace Job

/-- The number of the line with the given offset, counted from one. -/
def lineAt {Mnemonic Mode Feature : Type} (job : Job Mnemonic Mode Feature) (offset : Nat) : Nat :=
  1 + job.newlines.countP (· < offset)

end Job

namespace Assembly

variable {Mnemonic Mode Feature α : Type}

/-- All regions in source order. -/
def regions (s : Assembly Feature) : List Region := s.earlier ++ [s.current]

/-- The index of the current region. -/
def regionIndex (s : Assembly Feature) : Nat := s.earlier.length

-- --------
-- Reading
-- --------

/-- The cursor. -/
def look : Assemble Feature Cursor := do return (← get).cursor

/-- Moves the cursor. -/
def moveTo (c : Cursor) : Assemble Feature Unit := modify fun s => { s with cursor := c }

/-- Reads the current token, whatever it is. -/
def advance : Assemble Feature Token := do
  let c ← look
  moveTo c.next
  return c.peek

/-- Reads the current token if it is of the given kind, and says whether it was. -/
def eat (k : Kind) : Assemble Feature Bool := do
  match (← look).eat? k with
  | some (_, c) =>
    moveTo c
    return true
  | none => return false

/-- Reads the current token if it is the given word, and says whether it was. -/
def eatWord (word : String) : Assemble Feature Bool := do
  match (← look).eatWord? word with
  | some (_, c) =>
    moveTo c
    return true
  | none => return false

/-- Something else was expected in place of a token. -/
def unexpected (expected : String) (t : Token) : Assemble Feature α :=
  throw (.expectedToken expected t.lexeme.describe t.span)

/-- Fails with the error of a result. -/
def require : Except Diagnostic α → Assemble Feature α
  | .ok a => pure a
  | .error d => throw d

/-- Reads an expression. A problem met on the way counts even if there is an expression. -/
def expression (job : Job Mnemonic Mode Feature) : Assemble Feature Expr := do
  let s ← get
  let location := s.cursor.peek.span
  let scope : Scope := ⟨s.symbols, s.current.output.positionExpr location, job.family.isReserved⟩
  match Expr.parse scope 0 s.cursor with
  | ⟨_, d :: _⟩ => throw d
  | ⟨none, []⟩ => throw (.expectedExpression location)
  | ⟨some (e, c), []⟩ =>
    moveTo c
    return e

/-- Reads an expression whose value has to be known now. -/
def constant (job : Job Mnemonic Mode Feature) (kind : String) (low high : Value) :
    Assemble Feature Value := do
  let e ← expression job
  match e.value? with
  | none => throw (.invalidConstant e.text kind e.span)
  | some v =>
    let _ ← require (e.checkRange low high)
    return v

-- --------
-- Writing
-- --------

/-- Runs an action of the encoder on the current region. -/
def encode (act : Encode α) : Assemble Feature α := fun s =>
  let keep (e : Encoder) : Assembly Feature :=
    { s with current := { s.current with output := e.output }
             symbols := e.symbols
             reported := e.reported }
  match act { output := s.current.output, symbols := s.symbols, reported := s.reported } with
  | .ok a e => .ok a (keep e)
  | .error d e => .error d (keep e)

/-- Defines a symbol. -/
def define (name : String) (value : Expr) (span : Span) : Assemble Feature Unit := do
  let s ← get
  let symbols ← require (s.symbols.define name value span)
  set { s with symbols }

/-- Defines a label at the current position. -/
def defineLabel (name : String) (span : Span) : Assemble Feature Unit := do
  define name ((← get).current.output.positionExpr span) span

/-- Continues at an address: the current region is moved if it is empty, and closed otherwise. -/
def openRegion (origin : Value) (span : Span) : Assemble Feature Unit :=
  modify fun s =>
    if s.current.output.isEmpty then
      { s with current := { output := s.current.output.setOrigin origin, span } }
    else
      { s with earlier := s.earlier ++ [s.current]
               current := { output := { origin := some origin }, span } }

/-- Takes back the output that a region got after a checkpoint. -/
def rollback (s : Assembly Feature) (region : Nat) (c : Section.Checkpoint) : Assembly Feature :=
  let back (r : Region) : Region := { r with output := r.output.rollback c }
  if region = s.regionIndex then { s with current := back s.current }
  else { s with earlier := s.earlier.modify region back }

end Assembly

end CrossAsm
