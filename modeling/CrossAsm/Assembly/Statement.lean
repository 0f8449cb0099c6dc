import CrossAsm.Assembly.Directive

/-!
# CrossAsm — statements

A statement is a label, an instruction, a directive or a definition, on one line. A statement that fails
leaves its error and no output, and the run goes on behind it.
-/

namespace CrossAsm.Assembly

variable {Mnemonic Mode Feature : Type} [DecidableEq Mode] [Flag Mode] [Flag Feature]

-- --------
-- Instructions
-- --------

/-- Encodes an instruction and reports if it was synthesized. -/
def encodeInstruction (F : Family Mnemonic Mode Feature) (site : Site Feature) (m : Mnemonic)
    (implied : Option Nat) (c : Cursor) : Encode Cursor := do
  let c' ← Encoder.dispatch F site m implied c
  let s ← get
  if s.synthesized then
    Encoder.report site.policy (.synthesized (F.display m) (s.instructions - 1) site.span)
  return c'

/-- An instruction behind its name. -/
def instruction (job : Job Mnemonic Mode Feature) (name : String) (span : Span) :
    Assemble Feature Unit := do
  match job.family.mnemonic? name with
  | none => throw (.unknownMnemonic name job.family.name span)
  | some (m, implied) =>
    let s ← get
    let site : Site Feature := ⟨s.machine, job.policy, span.through s.cursor.statementSpan⟩
    let c ← encode (encodeInstruction job.family site m implied s.cursor)
    moveTo c

-- --------
-- Statements
-- --------

/-- A definition behind its equals sign. -/
def definition (job : Job Mnemonic Mode Feature) (name : String) (span : Span) :
    Assemble Feature Unit := do
  let e ← expression job
  define name e span

/-- Whether a definition goes on here; reads its equals sign or `equ`. -/
def eatEquals : Assemble Feature Bool := do
  if ← eat (.mark .equals) then return true
  eatWord "equ"

/-- What stands behind the label of a statement. -/
def content (job : Job Mnemonic Mode Feature) : Assemble Feature Unit := do
  let t ← advance
  match t.lexeme with
  | .mark .period => directive job
  | .identifier name =>
    if ← eatEquals then definition job name t.span else instruction job name t.span
  | _ => unexpected "instruction, directive or label" t

/-- Reads the label of a statement, if it has one. -/
def label : Assemble Feature (Option (String × Span)) := do
  let c ← look
  match c.peek.lexeme, c.next.eat? (.mark .colon) with
  | .identifier name, some (_, c') =>
    moveTo c'
    return some (name, c.peek.span)
  | _, _ => return none

/-- Whether `.org` stands here. -/
def atOrigin (c : Cursor) : Bool :=
  c.isAt (.mark .period) &&
    match (c.peekAt 1).lexeme.name? with
    | some name => Text.sameWord name "org"
    | none => false

/-- The content of a statement, if it has any. -/
def optionalContent (job : Job Mnemonic Mode Feature) : Assemble Feature Unit := do
  if (← look).atStatementEnd then return
  content job

/-- The parts of a statement. A label in front of `.org` names the new address. -/
def parts (job : Job Mnemonic Mode Feature) : Assemble Feature Unit := do
  match ← label with
  | none => optionalContent job
  | some (name, span) =>
    if atOrigin (← look) then
      optionalContent job
      defineLabel name span
    else
      defineLabel name span
      optionalContent job

/-- A whole statement: nothing may stand behind it on its line. -/
def wholeStatement (job : Job Mnemonic Mode Feature) : Assemble Feature Unit := do
  parts job
  let c ← look
  unless c.atStatementEnd do throw (.danglingTokens c.statementSpan)

/-- Assembles a statement. Its output is listed if it succeeds; if it fails, the output is taken back,
the error is kept and the rest of the line is skipped. -/
def statement (job : Job Mnemonic Mode Feature) (s : Assembly Feature) : Assembly Feature :=
  let line := job.lineAt s.cursor.peek.span.start
  match wholeStatement job s with
  | .ok () s' =>
    let offset := if s'.regionIndex = s.regionIndex then s.current.output.size else 0
    let entry : ListingLine := ⟨line, s'.regionIndex, offset, s'.current.output.size - offset⟩
    { s' with listing := s'.listing ++ [entry] }
  | .error d s' =>
    let back := s'.rollback s.regionIndex s.current.output.checkpoint
    { back with errors := back.errors ++ [d], cursor := back.cursor.skipStatement }

/-- Reads past a newline or assembles a statement. -/
def step (job : Job Mnemonic Mode Feature) (s : Assembly Feature) : Assembly Feature :=
  match s.cursor.eat? .newline with
  | some (_, c) => { s with cursor := c }
  | none => statement job s

/-- Takes steps until all tokens are read. Each step reads at least one, so as many steps as there are
tokens are enough. -/
def steps (job : Job Mnemonic Mode Feature) : Nat → Assembly Feature → Assembly Feature
  | 0, s => s
  | n + 1, s => if s.cursor.isExhausted then s else steps job n (step job s)

end CrossAsm.Assembly
