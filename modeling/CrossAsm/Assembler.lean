import CrossAsm.Assembly.Statement
import CrossAsm.Token.Lexer

/-!
# CrossAsm — assembling a source text

The outermost functions: a source text becomes a program or a failure, with the warnings and advice on
the way.
-/

namespace CrossAsm

/-- The outcome of a run: a program or a failure, and what was reported on the way. -/
structure Assembled where
  result : Except Failure Program
  reported : List Diagnostic

/-- The byte offsets of the newlines of a text that starts at `offset`. -/
def newlineOffsets (offset : Nat) : List Char → List Nat
  | [] => []
  | c :: cs =>
    let others := newlineOffsets (offset + c.utf8Size) cs
    if c = '\n' then offset :: others else others

namespace Assembly

variable {Feature : Type}

/-- The outcome of a run that is over: a program only if no statement failed. -/
def finish (s : Assembly Feature) : Assembled where
  reported := s.reported
  result :=
    match s.errors with
    | [] => .ok ⟨s.regions, s.symbols, s.listing⟩
    | errors => .error (.collected errors)

end Assembly

namespace Family

variable {Mnemonic Mode Feature : Type} [DecidableEq Mode] [Flag Mode] [Flag Feature]

/-- Assembles a source text. A text that is not made of tokens fails at once; the errors of statements
are collected. -/
def assemble (F : Family Mnemonic Mode Feature) (machine : Machine Feature) (policy : Policy)
    (source : String) : Assembled :=
  match Token.scan source with
  | .error d => ⟨.error (.single d), []⟩
  | .ok tokens =>
    let job : Job Mnemonic Mode Feature := ⟨F, policy, newlineOffsets 0 source.toList⟩
    let start : Assembly Feature := { machine, cursor := ⟨tokens, source.utf8ByteSize⟩ }
    (Assembly.steps job tokens.length start).finish

/-- Assembles and links a source text with the default features and relocatable code at zero. -/
def image (F : Family Mnemonic Mode Feature) (source : String) : Except Failure (List UInt8) :=
  match (F.assemble { features := F.defaultFeatures } {} source).result with
  | .error f => .error f
  | .ok program => program.link 0

end Family

end CrossAsm
