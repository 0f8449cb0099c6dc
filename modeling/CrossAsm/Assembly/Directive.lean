import CrossAsm.Assembly
import CrossAsm.Text.Utf8

/-!
# CrossAsm — directives

The statements that start with a period.
-/

namespace CrossAsm

/-- The directives. -/
inductive Directive where
  /-- `.org`: code continues at an address. -/
  | origin
  /-- `.byte`, `.word`, `.long` and `.dword`: values, and text in bytes. -/
  | data (width : Width)
  /-- `.cpu`: selects a CPU of the family. -/
  | cpu
  /-- `.basepage`: the page that short addresses reach. -/
  | basePage
  /-- `.synth`: whether instructions may be synthesized. -/
  | synthesis
deriving DecidableEq, Repr

namespace Directive

/-- The directive with the given name in any letter case. -/
def ofName? (name : String) : Option Directive :=
  match Text.lower name with
  | "org" => some .origin
  | "byte" | "db" => some (.data .byte)
  | "word" | "dw" => some (.data .word)
  | "long" => some (.data .long)
  | "dword" | "dd" => some (.data .doubleWord)
  | "cpu" => some .cpu
  | "basepage" => some .basePage
  | "synth" => some .synthesis
  | _ => none

end Directive

namespace Assembly

variable {Mnemonic Mode Feature : Type}

/-- Appends a value of a data directive. A constant that does not fit is reported and cut. -/
def emitDatum (job : Job Mnemonic Mode Feature) (e : Expr) (w : Width) : Encode Unit :=
  match e.value? with
  | none => Encoder.emitValue e w
  | some v =>
    if v.within w.low w.high then Encoder.emitValue e w
    else do
      Encoder.report job.policy (.valueTooLarge v w.bits e.span)
      Encoder.emitTruncated e w

/-- One item of a data directive: a value, or text where the items are bytes. -/
def datum (job : Job Mnemonic Mode Feature) (w : Width) : Assemble Feature Unit := do
  let c ← look
  match c.peek.lexeme, w with
  | .text s, .byte =>
    moveTo c.next
    encode (Encoder.emit (Text.utf8Bytes s.toList))
  | _, _ =>
    let e ← expression job
    encode (emitDatum job e w)

/-- The items of a data directive, with a comma between any two. There are fewer of them than `fuel`
if that is more than the number of tokens. -/
def data (job : Job Mnemonic Mode Feature) (w : Width) : Nat → Assemble Feature Unit
  | 0 => pure ()
  | fuel + 1 => do
    datum job w
    if ← eat (.mark .comma) then data job w fuel

/-- The name of a CPU, which may be written as a word, a text or a number. -/
def cpuName? : Lexeme → Option String
  | .identifier name => some name
  | .text s => some s
  | .number v => some v.decimal
  | _ => none

/-- `.cpu`. -/
def selectCpu (job : Job Mnemonic Mode Feature) : Assemble Feature Unit := do
  let t ← advance
  match cpuName? t.lexeme with
  | none => unexpected "CPU name" t
  | some name =>
    match job.family.cpu? name with
    | none => throw (.invalidConstant name (job.family.name ++ " CPU") t.span)
    | some features => modify fun s => { s with machine := { s.machine with features } }

/-- `.synth`. -/
def setSynthesis : Assemble Feature Unit := do
  let t ← advance
  match t.lexeme.name?.map Text.lower with
  | some "on" => modify fun s => { s with machine := { s.machine with synthesis := true } }
  | some "off" => modify fun s => { s with machine := { s.machine with synthesis := false } }
  | _ => unexpected "`on` or `off`" t

/-- Carries out a directive whose name stands at `span`. -/
def carryOut (job : Job Mnemonic Mode Feature) (span : Span) : Directive → Assemble Feature Unit
  | .origin => do
    let origin ← constant job "origin" 0 job.family.highestAddress
    openRegion origin span
  | .data w => do data job w ((← look).rest.length + 1)
  | .cpu => selectCpu job
  | .basePage => do
    let basePage ← constant job "base page" 0 0xff
    modify fun s => { s with machine := { s.machine with basePage } }
  | .synthesis => setSynthesis

/-- A directive behind its period. -/
def directive (job : Job Mnemonic Mode Feature) : Assemble Feature Unit := do
  let t ← advance
  match t.lexeme.name? with
  | none => unexpected "directive name" t
  | some name =>
    match Directive.ofName? name with
    | none => throw (.unknownDirective name t.span)
    | some d => carryOut job t.span d

end Assembly

end CrossAsm
