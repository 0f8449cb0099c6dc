import CrossAsm.Cpu

/-!
# CrossAsm — command lines

A command line is a list of arguments: options, and the names of the input and the output. Arguments are
read from left to right and the first refusal counts, with one subtlety. What stands in an argument of
its own, the value of an option or a name, is looked at only when the next argument has been recognised;
an argument that is not recognised at all is refused before that.
-/

namespace CrossAsm

/-- How the output is written. -/
inductive OutputFormat where
  /-- The bytes themselves. -/
  | plain
  /-- The bytes in hexadecimal. -/
  | hexDump
deriving DecidableEq, Repr

/-- The format with the given name. -/
def OutputFormat.ofName? : String → Option OutputFormat
  | "plain" => some .plain
  | "hexdump" => some .hexDump
  | _ => none

/-- What a command line asks for. -/
structure Options where
  /-- The name of the input; `-` is the standard input. -/
  input : String
  /-- The name of the output; `-` or none is the standard output. -/
  output : Option String := none
  cpu : Cpu := .mos6502
  format : OutputFormat := .plain
  /-- The address of relocatable code. -/
  base : Value := 0
  synthesis : Bool := true
  verbosity : Nat := 0
  policy : Policy := {}
deriving DecidableEq, Repr

/-- Why a command line gives no options. -/
inductive Refusal where
  /-- There is no input. -/
  | missingArgument
  /-- An option that does not exist, or a name too many. -/
  | unknownArgument
  /-- A value that is not one of the choices, none at all, or an empty name. -/
  | invalidValue
  /-- A base that is not an address. -/
  | invalidAddress
  /-- An option that is given twice. -/
  | repeatedOption
  /-- A value for an option that takes none. -/
  | surplusValue
  /-- The help text was asked for. -/
  | help
  /-- The version was asked for. -/
  | version
deriving DecidableEq, Repr

/-- The line that answers a command line without options. -/
def Refusal.message : Refusal → String
  | .missingArgument => "error: the input is missing"
  | .unknownArgument => "error: an argument was not expected"
  | .invalidValue => "error: a value is missing or is not one of the choices"
  | .invalidAddress => "error: the base is not an address"
  | .repeatedOption => "error: an option is given more than once"
  | .surplusValue => "error: an option that takes no value is given one"
  | .help => "Retargetable assembler for 8-bit CPU families."
  | .version => "retroasm 0.4.0"

namespace CommandLine

/-- What can be given on a command line, for the reader. -/
def usage : String :=
  "\n".intercalate
    ["Usage: retroasm [OPTIONS] <INPUT> [OUTPUT]",
     "",
     "Options:",
     "  -c, --cpu <CPU>                6502, 65c02, 65ce02, 4510, 45gs02, z80 or z80n",
     "  -f, --output-format <FORMAT>   plain or hexdump",
     "  -b, --base <ADDRESS>           address of relocatable code",
     "      --no-synth                 refuse instructions that have to be expanded",
     "  -v, --verbose                  say more",
     "  -w, --ignore <CODE>            silence a warning",
     "  -W, --error <CODE>             turn a warning into an error",
     "  -h, --help                     print this text",
     "  -V, --version                  print the version"]

-- --------
-- Parameters
-- --------

/-- What can be given on a command line. -/
inductive Parameter where
  | input | output | cpu | format | base | noSynthesis | verbose | ignore | deny | help | version
deriving DecidableEq, Repr

namespace Parameter

/-- The option with the given long name. -/
def ofLong? : String → Option Parameter
  | "cpu" => some .cpu
  | "output-format" => some .format
  | "base" => some .base
  | "no-synth" => some .noSynthesis
  | "verbose" => some .verbose
  | "ignore" => some .ignore
  | "error" => some .deny
  | "help" => some .help
  | "version" => some .version
  | _ => none

/-- The option with the given letter. -/
def ofShort? : Char → Option Parameter
  | 'c' => some .cpu
  | 'f' => some .format
  | 'b' => some .base
  | 'v' => some .verbose
  | 'w' => some .ignore
  | 'W' => some .deny
  | 'h' => some .help
  | 'V' => some .version
  | _ => none

/-- Whether a parameter takes a value. -/
def takesValue : Parameter → Bool
  | .noSynthesis | .verbose | .help | .version => false
  | _ => true

end Parameter

/-- What has been given so far. -/
structure Given where
  input : Option String := none
  output : Option String := none
  cpu : Option Cpu := none
  format : Option OutputFormat := none
  base : Option Value := none
  noSynthesis : Bool := false
  verbosity : Nat := 0
  policy : Policy := {}
deriving DecidableEq, Repr

/-- The base of relocatable code: a 16-bit address, in hexadecimal behind `$` or `0x`. -/
def address? (text : String) : Option Value :=
  let number := match text.toList with
    | '$' :: digits | '0' :: 'x' :: digits => Text.signedNumber 16 digits
    | digits => Text.signedNumber 10 digits
  match number with
  | .ok v => if v.within 0 0xffff then some v else none
  | .error _ => none

/-- Sets what may be given once. Giving it again is refused before its value is looked at. -/
def once {α : Type} (previous value : Option α) (fault : Refusal) : Except Refusal (Option α) :=
  if previous.isSome then .error .repeatedOption
  else
    match value with
    | some a => .ok (some a)
    | none => .error fault

/-- A name that is not empty. -/
def name? (text : String) : Option String := if text.isEmpty then none else some text

/-- Takes the value of a parameter. -/
def Given.take (g : Given) (p : Parameter) (value : String) : Except Refusal Given :=
  match p with
  | .input => do return { g with input := ← once g.input (name? value) .invalidValue }
  | .output => do return { g with output := ← once g.output (name? value) .invalidValue }
  | .cpu => do return { g with cpu := ← once g.cpu (Cpu.ofName? value) .invalidValue }
  | .format => do return { g with format := ← once g.format (OutputFormat.ofName? value) .invalidValue }
  | .base => do return { g with base := ← once g.base (address? value) .invalidAddress }
  | .ignore => .ok { g with policy := { g.policy with ignore := g.policy.ignore ++ [value] } }
  | .deny => .ok { g with policy := { g.policy with deny := g.policy.deny ++ [value] } }
  | .noSynthesis | .verbose | .help | .version => .error .surplusValue

/-- Takes a parameter without a value. -/
def Given.mark (g : Given) : Parameter → Except Refusal Given
  | .noSynthesis =>
    if g.noSynthesis then .error .repeatedOption else .ok { g with noSynthesis := true }
  | .verbose => .ok { g with verbosity := min (g.verbosity + 1) 255 }
  | .help => .error .help
  | .version => .error .version
  | _ => .error .invalidValue

-- --------
-- Reading
-- --------

/-- What the last argument left open. -/
inductive Pending where
  | nothing
  /-- An option whose value is still to come. -/
  | option (p : Parameter)
  /-- A value that has not been looked at. -/
  | value (p : Parameter) (text : String)
deriving DecidableEq, Repr

/-- How far a command line has been read. -/
structure Reader where
  given : Given := {}
  pending : Pending := .nothing
  /-- How many names there were. -/
  names : Nat := 0
  /-- Whether `--` ended the options. -/
  onlyNames : Bool := false
deriving DecidableEq, Repr

namespace Reader

/-- Looks at what the last argument left open. -/
def settle (r : Reader) : Except Refusal Reader :=
  match r.pending with
  | .nothing => .ok r
  | .option _ => .error .invalidValue
  | .value p text => do return { r with given := ← r.given.take p text, pending := .nothing }

/-- An option with a value attached. -/
def attached (r : Reader) (p : Parameter) (value : String) : Except Refusal Reader := do
  let r ← r.settle
  return { r with given := ← r.given.take p value }

/-- An option whose value is to come. -/
def await (r : Reader) (p : Parameter) : Except Refusal Reader := do
  return { ← r.settle with pending := .option p }

/-- An option without a value. -/
def flag (r : Reader) (p : Parameter) : Except Refusal Reader := do
  let r ← r.settle
  return { r with given := ← r.given.mark p }

/-- A name. -/
def name (r : Reader) (text : String) : Except Refusal Reader :=
  match r.names with
  | 0 => do return { ← r.settle with pending := .value .input text, names := 1 }
  | 1 => do return { ← r.settle with pending := .value .output text, names := 2 }
  | _ => .error .unknownArgument

/-- An option by its long name, with the value behind its equals sign. -/
def long (r : Reader) (option : String) (value : Option String) : Except Refusal Reader :=
  match Parameter.ofLong? option, value with
  | none, _ => .error .unknownArgument
  | some p, none => if p.takesValue then r.await p else r.flag p
  | some p, some v => if p.takesValue then r.attached p v else .error .surplusValue

/-- Options by their letters. The first that takes a value takes the rest of the letters. -/
def short (r : Reader) : List Char → Except Refusal Reader
  | [] => .ok r
  | letter :: rest =>
    match Parameter.ofShort? letter with
    | none => .error .unknownArgument
    | some p =>
      if p.takesValue then
        match rest with
        | [] => r.await p
        | '=' :: value => r.attached p (String.ofList value)
        | value => r.attached p (String.ofList value)
      else do (← r.flag p).short rest

/-- Splits a long option at its first equals sign. -/
def splitEquals (text : List Char) : String × Option String :=
  match text.dropWhile (· ≠ '=') with
  | [] => (String.ofList text, none)
  | _ :: value => (String.ofList (text.takeWhile (· ≠ '=')), some (String.ofList value))

/-- Reads an argument. -/
def read (r : Reader) (argument : String) : Except Refusal Reader :=
  if r.onlyNames then r.name argument
  else
    match argument.toList with
    | ['-', '-'] => .ok { r with onlyNames := true }
    | '-' :: '-' :: text =>
      let (option, value) := splitEquals text
      r.long option value
    | '-' :: letter :: letters => r.short (letter :: letters)
    | _ =>
      match r.pending with
      | .option p => .ok { r with pending := .value p argument }
      | _ => r.name argument

/-- What a command line asks for when all arguments have been read. -/
def finish (r : Reader) : Except Refusal Options := do
  let g := (← r.settle).given
  match g.input with
  | none => .error .missingArgument
  | some input =>
    return { input
             output := g.output
             cpu := g.cpu.getD .mos6502
             format := g.format.getD .plain
             base := g.base.getD 0
             synthesis := !g.noSynthesis
             verbosity := g.verbosity
             policy := g.policy }

end Reader

/-- Reads a command line. -/
def parse (arguments : List String) : Except Refusal Options := do
  (← arguments.foldlM Reader.read {}).finish

end CommandLine

end CrossAsm
