import CrossAsm.Session

/-!
# CrossAsm — the command

Reads what the arguments name, runs the session and writes what it leaves behind.
-/

namespace CrossAsm.Command

/-- What the operating system says about an error. -/
def describeError : IO.Error → String
  | .noFileOrDirectory .. => "No such file or directory (os error 2)"
  | .permissionDenied .. => "Permission denied (os error 13)"
  | e => toString e

/-- Runs an action and keeps what the operating system says if it fails. -/
def attempt {α : Type} (act : IO α) : IO (Except String α) := do
  try return .ok (← act)
  catch e => return .error (describeError e)

/-- The bytes on the standard input. -/
def readStandardInput : IO (List UInt8) := do
  return (← (← IO.getStdin).readBinToEnd).toList

/-- The bytes of a file. -/
def readFile (name : String) : IO (List UInt8) := do
  return (← IO.FS.readBinFile name).toList

/-- What a run finds, as far as its options need it. -/
def surroundings (o : Options) : IO Surroundings := do
  let standardInput ← if o.input = "-" then readStandardInput else pure []
  let contents ← if o.input = "-" then pure (.ok []) else attempt (readFile o.input)
  return { standardInput, file := fun _ => contents, canWrite := fun _ => .ok () }

/-- Writes the output of a run. -/
def deliver (t : Transcript) : IO (Except String Unit) :=
  let bytes := ByteArray.mk t.output.toArray
  match t.destination with
  | some path => attempt (IO.FS.writeBinFile path bytes)
  | none => attempt do
    let out ← IO.getStdout
    out.write bytes
    out.flush

/-- Prints everything a run has to say. -/
def announce (t : Transcript) : IO Unit := do
  for d in t.diagnostics do
    IO.eprintln (d.code ++ ": " ++ d.message)
  if let some line := t.summary then IO.eprintln line
  match t.refusal with
  | none => return
  | some .help => IO.println (Refusal.help.message ++ "\n\n" ++ CommandLine.usage)
  | some refusal => IO.eprintln (refusal.message ++ "\n\n" ++ CommandLine.usage)

/-- Runs the command and gives its exit status. -/
def run (arguments : List String) : IO UInt32 := do
  let around ← match CommandLine.parse arguments with
    | .ok options => surroundings options
    | .error _ => pure { standardInput := [], file := fun _ => .ok [], canWrite := fun _ => .ok () }
  let t := Session.run around arguments
  announce t
  if t.status ≠ 0 then return UInt32.ofNat t.status
  match ← deliver t with
  | .ok () => return 0
  | .error cause =>
    IO.eprintln cause
    return 1

end CrossAsm.Command

/-- The command. -/
def main (arguments : List String) : IO UInt32 := CrossAsm.Command.run arguments
