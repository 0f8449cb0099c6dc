import CrossAsm.Operand
import CrossAsm.Section

/-!
# CrossAsm — instructions and their encodings

A native instruction is encoded as a list of items: bytes and values of a width. An instruction
without a native encoding is expanded into parts, which are native instructions; parts are never
expanded again.
-/

namespace CrossAsm

/-- What a mnemonic needs and takes. -/
structure Entry (Mode Feature : Type) where
  /-- Features the instruction needs. -/
  requires : FlagSet Feature
  /-- Modes of the first operand. -/
  first : FlagSet Mode
  /-- Modes of the second operand, for instructions that have one. -/
  second : Option (FlagSet Mode) := none
  immediate : ImmediateWidth := .byte

/-- A mnemonic with resolved operands. -/
structure Instruction (Mnemonic Mode : Type) where
  mnemonic : Mnemonic
  first : Operand Mode
  second : Operand Mode

/-- A piece of output. -/
inductive Item where
  | bytes (bytes : List UInt8)
  | value (e : Expr) (width : Width)
deriving DecidableEq, Repr

/-- A step of an expansion. -/
inductive Part (Mnemonic Mode : Type) where
  /-- Bytes in front of a native instruction. -/
  | bytes (bytes : List UInt8)
  /-- A constant has to lie in a range. -/
  | check (e : Expr) (low high : Value)
  /-- A native instruction. -/
  | native (i : Instruction Mnemonic Mode)
  /-- The made-up label stands here. -/
  | label

/-- An instruction in terms of native ones. -/
structure Expansion (Mnemonic Mode : Type) where
  /-- Whether this counts as synthesis, which can be switched off. -/
  synthesized : Bool
  /-- Whether the parts refer to a made-up label. -/
  labelled : Bool := false
  parts : List (Part Mnemonic Mode)

/-- What the encoding of an instruction depends on besides its operands. -/
structure Setting (Feature : Type) where
  features : FlagSet Feature
  /-- The address of the instruction. -/
  counter : Expr
  /-- A reference to the made-up label of an expansion. -/
  label : Expr

/-- Whether all the given features are active. -/
def Setting.has {Feature : Type} [Flag Feature] (s : Setting Feature) (features : FlagSet Feature) :
    Bool :=
  s.features.includes features

/-- A CPU family: its vocabulary, its operand grammar and its encodings. -/
structure Family (Mnemonic Mode Feature : Type) where
  name : String
  /-- The mode of an absent operand. -/
  noOperand : Mode
  /-- The wide modes with the narrow modes of the same syntax. -/
  narrowing : List (Mode × Mode)
  /-- The last address an origin can have. -/
  highestAddress : Value := 0xffff
  /-- The spelling of a mnemonic in lower case. -/
  spelling : Mnemonic → String
  /-- The mnemonic of a spelling in lower case. -/
  ofSpelling? : String → Option Mnemonic
  /-- The mnemonic a name stands for, in any letter case, with the operand that the name carries. -/
  mnemonic? : String → Option (Mnemonic × Option Nat)
  entry : Mnemonic → Entry Mode Feature
  /-- The features of a CPU, by its name in any letter case. -/
  cpu? : String → Option (FlagSet Feature)
  defaultFeatures : FlagSet Feature
  /-- Whether a name is a register or condition and never a symbol. -/
  isReserved : String → Bool
  grammar : Scope → Machine Feature → Request Mode → Parser (Operand Mode)
  /-- The features that a mode needs whatever the instruction. -/
  modeRequires : Mode → FlagSet Feature
  /-- How an instruction is expressed by native ones, if it is not native itself. -/
  expansion? : Setting Feature → Instruction Mnemonic Mode → Option (Expansion Mnemonic Mode)
  /-- The encoding of a native instruction. -/
  native : Setting Feature → Instruction Mnemonic Mode → Except Diagnostic (List Item)

namespace Family

variable {Mnemonic Mode Feature : Type}

/-- A mnemonic as diagnostics show it. -/
def display (F : Family Mnemonic Mode Feature) (m : Mnemonic) : String := Text.upper (F.spelling m)

/-- The mnemonic with the given lower-case spelling, or the diagnostic that there is none. -/
def parseMnemonic (F : Family Mnemonic Mode Feature) (name : String) (location : Span) :
    Except Diagnostic Mnemonic :=
  match F.ofSpelling? name with
  | some m => .ok m
  | none => .error (.invalidConstant name "mnemonic" location)

/-- Resolves one operand of the family. -/
def resolve [DecidableEq Mode] (F : Family Mnemonic Mode Feature) (scope : Scope)
    (machine : Machine Feature) (request : Request Mode) : Parser (Operand Mode) :=
  Operand.resolve (F.grammar scope machine request) F.narrowing machine request.allowed

end Family

end CrossAsm
