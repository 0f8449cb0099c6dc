/-!
# CrossAsm — letter case

Keywords (mnemonics, registers, directives, CPU names) are recognised whatever the case of their
ASCII letters; other characters stay as they are.
-/

namespace CrossAsm.Text

/-- The text with its ASCII letters in lower case. -/
def lower (s : String) : String := s.map Char.toLower

/-- The text with its ASCII letters in upper case. -/
def upper (s : String) : String := s.map Char.toUpper

/-- Whether two texts agree up to the case of ASCII letters. -/
def sameWord (s t : String) : Bool := lower s == lower t

end CrossAsm.Text
