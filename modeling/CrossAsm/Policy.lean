import CrossAsm.Diagnostic

/-!
# CrossAsm — warning policy

Warnings and advice can be silenced or turned into errors by their codes. A code may be given with or
without its root, and `all` stands for every code.
-/

namespace CrossAsm

/-- Which warnings are errors and which are silenced. -/
structure Policy where
  deny : List String := []
  ignore : List String := []
deriving DecidableEq, Repr

namespace Policy

/-- Whether a given code names the diagnostic. -/
def names (given : String) (d : Diagnostic) : Bool :=
  given == "all" || given == d.code || given == d.shortCode

/-- Whether the policy turns the diagnostic into an error. -/
def denies (p : Policy) (d : Diagnostic) : Bool := p.deny.any (names · d)

/-- Whether the policy silences the diagnostic. -/
def ignores (p : Policy) (d : Diagnostic) : Bool := p.ignore.any (names · d)

/-- Whether the diagnostic stops the statement, by itself or by the policy. -/
def isError (p : Policy) (d : Diagnostic) : Bool := d.severity == .error || p.denies d

/-- What becomes of a diagnostic: thrown as an error, or the diagnostics to report, which are none if
it is silenced. -/
def judge (p : Policy) (d : Diagnostic) : Except Diagnostic (List Diagnostic) :=
  if p.isError d then .error d
  else if p.ignores d then .ok []
  else .ok [d]

end Policy

end CrossAsm
