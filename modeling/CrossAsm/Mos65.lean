import CrossAsm.Mos65.Expansion
import CrossAsm.Mos65.Grammar

/-!
# CrossAsm — the 65xx family
-/

namespace CrossAsm.Mos65

/-- The 65xx family. -/
def family : Family Mnemonic Mode Feature where
  name := "6502"
  noOperand := .none
  narrowing := narrowing
  spelling := Mnemonic.spelling
  ofSpelling? := Mnemonic.ofSpelling?
  mnemonic? := Mnemonic.ofName?
  entry := entry
  cpu? := cpu?
  defaultFeatures := {.base}
  isReserved := isReserved
  grammar := grammar
  modeRequires := modeRequires
  expansion? := expansion?
  native := native

end CrossAsm.Mos65
