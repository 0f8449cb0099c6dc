import CrossAsm.Span
import CrossAsm.Text.Hex
import CrossAsm.Text.Radix

/-!
# CrossAsm — diagnostics

Everything the assembler tells its user: errors, warnings and advice. A diagnostic is its cause and
the place in the source; code, wording, severity, labels and help follow from the cause and are
stated here once.

A run as a whole ends with a `Failure`: one diagnostic that stopped it, or the collected errors of its
statements.
-/

namespace CrossAsm

/-- How serious a diagnostic is. -/
inductive Severity where
  | error
  | warning
  | advice
deriving DecidableEq, Repr

/-- What the assembler reports, with its place in the source. -/
inductive Diagnostic where
  /-- A file could not be read or written; `cause` is what the operating system says. -/
  | fileNotFound (name cause : String) (location : Span)
  | unexpectedCharacter (char : Char) (location : Span)
  | invalidNumber (fault : Text.NumberFault) (location : Span)
  | unexpectedEnd (expected : String) (location : Span)
  | expectedToken (expected actual : String) (location : Span)
  | expectedExpression (location : Span)
  /-- A `#` without an expression behind it. -/
  | loneHash (location : Span)
  | invalidConstant (text kind : String) (location : Span)
  | unknownMnemonic (name family : String) (location : Span)
  | unknownDirective (name : String) (location : Span)
  | missingOperand (mnemonic : String) (index : Nat) (location : Span)
  | danglingTokens (location : Span)
  | invalidMode (mnemonic : String) (index : Nat) (legal : List String) (location : Span)
  | valueOutOfRange (value low high : Value) (location : Span)
  | outsideBasePage (value base : Value) (location : Span)
  | divisionByZero (location : Span)
  | patchOutOfRange (value : Value) (bits : Nat) (signed : Bool) (location : Span)
  | overlappingSections (start previousEnd : Value) (location : Span)
  | unsupportedInstruction (mnemonic required active : String) (location : Span)
  | unsupportedMode (mode required : String) (location : Span)
  | synthesisDisabled (mnemonic : String) (location : Span)
  | redefinedSymbol (name : String) (location previous : Span)
  | unresolvedSymbol (name : String) (location : Span)
  | recursiveSymbol (name : String) (location : Span)
  /-- A constant is cut down to the width of its field. -/
  | valueTooLarge (value : Value) (bits : Nat) (location : Span)
  /-- An instruction was replaced by a sequence of `count` native ones. -/
  | synthesized (mnemonic : String) (count : Nat) (location : Span)
deriving DecidableEq, Repr

namespace Diagnostic

/-- An operand's place in words. -/
def ordinal : Nat → String
  | 0 => "first"
  | 1 => "second"
  | _ => "third"

/-- What every diagnostic code starts with. -/
def codeRoot : String := "retroasm::"

/-- The diagnostic's code behind the common root. -/
def shortCode : Diagnostic → String
  | .fileNotFound .. => "file_not_found"
  | .unexpectedCharacter .. => "syntax::unexpected_character"
  | .invalidNumber .. => "syntax::invalid_number"
  | .unexpectedEnd .. => "syntax::unexpected_end"
  | .expectedToken .. => "syntax::expected_token"
  | .expectedExpression .. => "syntax::expected_expression"
  | .loneHash .. => "syntax::single_hash_invalid"
  | .invalidConstant .. => "syntax::invalid_constant"
  | .unknownMnemonic .. => "syntax::unknown_mnemonic"
  | .unknownDirective .. => "syntax::unknown_directive"
  | .missingOperand .. => "syntax::missing_operand"
  | .danglingTokens .. => "syntax::dangling_tokens"
  | .invalidMode .. => "invalid_addressing_mode"
  | .valueOutOfRange .. => "value_out_of_range"
  | .outsideBasePage .. => "outside_base_page"
  | .divisionByZero .. => "division_by_zero"
  | .patchOutOfRange .. => "patch_out_of_range"
  | .overlappingSections .. => "overlapping_sections"
  | .unsupportedInstruction .. => "unsupported_instruction"
  | .unsupportedMode .. => "unsupported_addressing_mode"
  | .synthesisDisabled .. => "synthesis_disabled"
  | .redefinedSymbol .. => "redefined_symbol"
  | .unresolvedSymbol .. => "unresolved_symbol"
  | .recursiveSymbol .. => "recursive_symbol"
  | .valueTooLarge .. => "value_too_large"
  | .synthesized .. => "synthesized_instruction"

/-- The diagnostic's full code. -/
def code (d : Diagnostic) : String := codeRoot ++ d.shortCode

/-- Only oversized data is a warning and only an expansion is advice. -/
def severity : Diagnostic → Severity
  | .valueTooLarge .. => .warning
  | .synthesized .. => .advice
  | _ => .error

/-- The diagnostic's wording. -/
def message : Diagnostic → String
  | .fileNotFound name _ _ => "File \"" ++ name ++ "\" was not found"
  | .unexpectedCharacter char _ => "Unexpected character " ++ char.toString
  | .invalidNumber fault _ => "Invalid number: " ++ fault.message
  | .unexpectedEnd expected _ => "Unexpected end of input, expected " ++ expected
  | .expectedToken expected _ _ => "Expected " ++ expected
  | .expectedExpression _ => "Expected an expression"
  | .loneHash _ => "Single '#' is not a valid addressing mode"
  | .invalidConstant text kind _ => "`" ++ text ++ "` is not valid for " ++ kind
  | .unknownMnemonic name family _ => "Unknown mnemonic `" ++ name ++ "` for " ++ family
  | .unknownDirective name _ => "Unknown directive `." ++ name ++ "`"
  | .missingOperand mnemonic index _ =>
    "`" ++ mnemonic ++ "` is missing its " ++ ordinal index ++ " operand"
  | .danglingTokens _ => "There are dangling tokens after this statement"
  | .invalidMode mnemonic index _ _ =>
    "Invalid addressing mode for the " ++ ordinal index ++ " operand of `" ++ mnemonic ++ "`"
  | .valueOutOfRange value _ _ _ => "The value " ++ value.decimal ++ " is out of range for this operand"
  | .outsideBasePage value base _ =>
    "The address $" ++ Text.hexPattern 4 value ++ " is outside the base page $" ++
      Text.hexPattern 4 base ++ "-$" ++ Text.hexPattern 4 (base + 0xff)
  | .divisionByZero _ => "Division by zero"
  | .patchOutOfRange value bits signed _ =>
    "The value " ++ value.decimal ++ " does not fit into a " ++ toString bits ++ "-bit " ++
      (if signed then "signed " else "") ++ "field"
  | .overlappingSections start previousEnd _ =>
    "Section starting at " ++ Text.hexPattern 4 start ++
      " overlaps earlier output, which extends up to " ++ Text.hexPattern 4 previousEnd
  | .unsupportedInstruction mnemonic _ _ _ => "`" ++ mnemonic ++ "` is not available on the active CPU"
  | .unsupportedMode mode _ _ => "The addressing mode " ++ mode ++ " is not available on the active CPU"
  | .synthesisDisabled mnemonic _ =>
    "`" ++ mnemonic ++
      "` with these operands needs a synthesized instruction sequence, but synthesis is disabled"
  | .redefinedSymbol name _ _ => "Symbol '" ++ name ++ "' is defined more than once"
  | .unresolvedSymbol name _ => "Symbol '" ++ name ++ "' can not be resolved to a value"
  | .recursiveSymbol name _ => "Symbol '" ++ name ++ "' is defined in terms of itself"
  | .valueTooLarge value bits _ =>
    "The value " ++ Text.hexPattern 2 value ++ " is being used as a " ++ toString bits ++
      "-bit operand here, but it is larger than this. The extra upper bits are truncated."
  | .synthesized mnemonic count _ =>
    "`" ++ mnemonic ++ "` was expanded into " ++ toString count ++ " instructions"

/-- Advice on what to do about it, where there is any. -/
def help? : Diagnostic → Option String
  | .loneHash _ => some "Add a number to make this an immediate operand"
  | .unknownDirective .. =>
    some "Supported directives are .org, .byte, .word, .long, .dword, .cpu, .basepage and .synth"
  | .danglingTokens _ => some "Remove these tokens"
  | .invalidMode mnemonic _ legal _ =>
    some ("The instruction `" ++ mnemonic ++ "` accepts the modes " ++ ", ".intercalate legal ++ " here")
  | .valueOutOfRange _ low high _ =>
    some ("Legal values are " ++ low.decimal ++ " to " ++ high.decimal ++ " inclusive")
  | .outsideBasePage .. =>
    some ("This addressing mode only reaches the 256 bytes of the base page; use an absolute mode or " ++
      "move the base page")
  | .overlappingSections .. => some "Move the origin past the end of the earlier code"
  | .unsupportedInstruction _ required _ _ => some ("This instruction requires: " ++ required)
  | .unsupportedMode _ required _ => some ("This addressing mode requires: " ++ required)
  | .synthesisDisabled .. =>
    some "Enable synthetic instructions with `.synth on` or drop the --no-synth flag"
  | .unresolvedSymbol .. =>
    some "Any symbol must be defined somewhere. Did you misspell the symbol's name?"
  | .valueTooLarge .. => some "Remove these upper bits"
  | _ => none

/-- The places the diagnostic points at, each with its caption. -/
def labels : Diagnostic → List (String × Span)
  | .fileNotFound _ _ s => [("File was requested here", s)]
  | .unexpectedCharacter _ s => [("Unexpected", s)]
  | .invalidNumber fault s => [(fault.message, s)]
  | .unexpectedEnd expected s => [("There should be a " ++ expected ++ " here", s)]
  | .expectedToken _ actual s => [("This " ++ actual ++ " is invalid here", s)]
  | .expectedExpression s => [("No valid expression starts here", s)]
  | .loneHash s => [("This is not an addressing mode", s)]
  | .invalidConstant _ kind s => [("Not a valid " ++ kind, s)]
  | .unknownMnemonic _ _ s => [("Not an instruction, directive or label definition", s)]
  | .unknownDirective _ s => [("Unknown directive", s)]
  | .missingOperand _ _ s => [("Operand expected after this", s)]
  | .danglingTokens s => [("Dangling tokens here", s)]
  | .invalidMode _ _ _ s => [("No addressing mode matches this operand", s)]
  | .valueOutOfRange _ _ _ s => [("Out of range", s)]
  | .outsideBasePage _ _ s => [("Only a base page address is valid here", s)]
  | .divisionByZero s => [("The divisor of this operation is zero", s)]
  | .patchOutOfRange value _ _ s => [("This expression resolved to " ++ value.decimal, s)]
  | .overlappingSections _ _ s => [("Section starts here", s)]
  | .unsupportedInstruction _ _ active s => [("Not supported by " ++ active, s)]
  | .unsupportedMode _ _ s => [("Used here", s)]
  | .synthesisDisabled _ s => [("No native encoding", s)]
  | .redefinedSymbol _ s previous => [("Redefined here", s), ("First defined here", previous)]
  | .unresolvedSymbol _ s => [("Used here", s)]
  | .recursiveSymbol _ s => [("Resolving this needs its own value", s)]
  | .valueTooLarge _ bits s => [(toString bits ++ "-bit operand", s)]
  | .synthesized _ _ s => [("Synthesized", s)]

/-- What the operating system said, where it caused the diagnostic. -/
def cause? : Diagnostic → Option String
  | .fileNotFound _ cause _ => some cause
  | _ => none

end Diagnostic

/-- How a run fails: by one diagnostic, or with the errors collected on the way. -/
inductive Failure where
  | single (d : Diagnostic)
  | collected (ds : List Diagnostic)
deriving DecidableEq, Repr

namespace Failure

/-- The code of a failed run. -/
def code : Failure → String
  | .single d => d.code
  | .collected _ => Diagnostic.codeRoot ++ "assembly_failed"

/-- The wording of a failed run. -/
def message : Failure → String
  | .single d => d.message
  | .collected ds => "Assembly failed with " ++ toString ds.length ++ " error(s)"

/-- The diagnostics behind the failure. -/
def diagnostics : Failure → List Diagnostic
  | .single d => [d]
  | .collected ds => ds

end Failure

end CrossAsm
