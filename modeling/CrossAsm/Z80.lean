import CrossAsm.Z80.Encoding
import CrossAsm.Z80.Expansion
import CrossAsm.Z80.Grammar

/-!
# CrossAsm — the Z80 family
-/

namespace CrossAsm.Z80

/-- The Z80 family. Its addresses have one width, and its operand forms need no feature by
themselves. -/
def family : Family Mnemonic Mode Feature where
  name := "Z80"
  noOperand := .none
  narrowing := []
  spelling := Mnemonic.spelling
  ofSpelling? := Mnemonic.ofSpelling?
  mnemonic? := Mnemonic.ofName?
  entry := entry
  cpu? := cpu?
  defaultFeatures := {.z80}
  isReserved := isReserved
  grammar := grammar
  modeRequires _ := ∅
  expansion? := expansion?
  native := native

end CrossAsm.Z80
