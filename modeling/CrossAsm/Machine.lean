import CrossAsm.Flag
import CrossAsm.Value

/-!
# CrossAsm — the machine being assembled for

Its features, the page that short addresses reach, and whether missing instructions may be put together
from others. Directives change it between statements.
-/

namespace CrossAsm

/-- The state of the target machine that statements depend on. -/
structure Machine (Feature : Type) where
  features : FlagSet Feature
  /-- Number of the 256-byte page that short addresses reach. -/
  basePage : Value := 0
  /-- Whether instructions without a native encoding may be synthesized. -/
  synthesis : Bool := true

namespace Machine

variable {Feature : Type}

/-- The first address of the base page. -/
def baseAddress (m : Machine Feature) : Value := m.basePage * 0x100

/-- The last address of the base page. -/
def baseEnd (m : Machine Feature) : Value := m.baseAddress + 0xff

/-- Whether an address lies in the base page. -/
def inBasePage (m : Machine Feature) (address : Value) : Bool := address.within m.baseAddress m.baseEnd

/-- Whether all the given features are active. -/
def supports [Flag Feature] (m : Machine Feature) (features : FlagSet Feature) : Bool :=
  m.features.includes features

end Machine

end CrossAsm
