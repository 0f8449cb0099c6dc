import CrossAsm.CommandLine
import CrossAsm.HexDump
import CrossAsm.Text.Utf8

/-!
# CrossAsm — a run of the command

What the command does, as a function of its arguments and of what it finds: it reads the input,
assembles and links it, and writes the image. Nothing is written if anything fails.
-/

namespace CrossAsm

/-- The text of a file, if its bytes are UTF-8. -/
def Text.decode? (bytes : List UInt8) : Option String :=
  String.fromUTF8? (ByteArray.mk bytes.toArray)

/-- What a run finds. The functions give what the operating system says if they fail. -/
structure Surroundings where
  /-- The bytes on the standard input. -/
  standardInput : List UInt8
  /-- The bytes of a file. -/
  file : String → Except String (List UInt8)
  /-- Whether a file can be opened for writing. -/
  canWrite : String → Except String Unit

/-- What a run leaves behind. -/
structure Transcript where
  /-- The exit status. -/
  status : Nat
  /-- The file to be written; none is the standard output. -/
  destination : Option String := none
  /-- What is written there. -/
  output : List UInt8 := []
  /-- Why the arguments were refused. -/
  refusal : Option Refusal := none
  /-- Everything reported, in order. -/
  diagnostics : List Diagnostic := []
  /-- The last line of a run that failed with collected errors. -/
  summary : Option String := none

namespace Session

/-- What the operating system says about text that is not UTF-8. -/
def notText : String := "stream did not contain valid UTF-8"

/-- The text of bytes read from a source that diagnostics call `name`. -/
def text (name : String) (location : Span) (bytes : Except String (List UInt8)) :
    Except Diagnostic String :=
  match bytes with
  | .error cause => .error (.fileNotFound name cause location)
  | .ok bytes =>
    match Text.decode? bytes with
    | some s => .ok s
    | none => .error (.fileNotFound name notText location)

/-- The text of a file. A failure points at the name. -/
def loadFile (name : String) (bytes : Except String (List UInt8)) : Except Diagnostic String :=
  text name ⟨0, name.utf8ByteSize⟩ bytes

/-- The text to be assembled. -/
def loadInput (around : Surroundings) (name : String) : Except Diagnostic String :=
  if name = "-" then text "<stdin>" .zero (.ok around.standardInput)
  else loadFile name (around.file name)

/-- Where the output goes; none is the standard output. -/
def destination (around : Surroundings) (output : Option String) :
    Except Diagnostic (Option String) :=
  match output with
  | none | some "-" => .ok none
  | some path =>
    match around.canWrite path with
    | .ok () => .ok (some path)
    | .error cause => .error (.fileNotFound path cause .zero)

/-- Bytes in the format asked for. -/
def render (format : OutputFormat) (bytes : List UInt8) : List UInt8 :=
  match format with
  | .plain => bytes
  | .hexDump => Text.utf8Bytes (HexDump.render bytes none).toList

/-- The last line of a run that failed. -/
def summary? : Failure → Option String
  | .single _ => none
  | .collected errors => some (toString errors.length ++ " error(s) found, no output written")

/-- A run that failed. -/
def failed (reported : List Diagnostic) (f : Failure) : Transcript where
  status := 1
  diagnostics := reported ++ f.diagnostics
  summary := summary? f

/-- What the options ask for. -/
def carryOut (around : Surroundings) (o : Options) : Transcript :=
  match loadInput around o.input with
  | .error d => failed [] (.single d)
  | .ok source =>
    let assembled := o.cpu.assemble o.synthesis o.policy source
    let image := do (← assembled.result).link o.base
    match image with
    | .error f => failed assembled.reported f
    | .ok bytes =>
      match destination around o.output with
      | .error d => failed assembled.reported (.single d)
      | .ok destination =>
        { status := 0, destination, output := render o.format bytes
          diagnostics := assembled.reported }

/-- The line that tells the version. -/
def versionLine : String := Refusal.version.message ++ "\n"

/-- A run of the command. -/
def run (around : Surroundings) (arguments : List String) : Transcript :=
  match CommandLine.parse arguments with
  | .ok options => carryOut around options
  | .error .version => { status := 0, output := Text.utf8Bytes versionLine.toList }
  | .error .help => { status := 0, refusal := some .help }
  | .error refusal => { status := 2, refusal := some refusal }

end Session

end CrossAsm
