import CrossAsm.Main
import CrossAsm.Proofs.Absolute
import CrossAsm.Proofs.Assembly.Counter
import CrossAsm.Proofs.Assembly.Data
import CrossAsm.Proofs.Assembly.Progress
import CrossAsm.Proofs.Detour
import CrossAsm.Proofs.Expr.Progress
import CrossAsm.Proofs.Feature
import CrossAsm.Proofs.LetterCase
import CrossAsm.Proofs.MadeUpLabel
import CrossAsm.Proofs.Mos65.Address
import CrossAsm.Proofs.Mos65.Decoding
import CrossAsm.Proofs.Mos65.QuadLoad
import CrossAsm.Proofs.Operator
import CrossAsm.Proofs.Policy
import CrossAsm.Proofs.Program.AddressSpace
import CrossAsm.Proofs.Safety
import CrossAsm.Proofs.Synthesis
import CrossAsm.Proofs.Token.Number
import CrossAsm.Proofs.Token.Quotation
import CrossAsm.Proofs.Token.Spacing
import CrossAsm.Proofs.Z80.Indirection
import CrossAsm.Proofs.Z80.SecondOperand
