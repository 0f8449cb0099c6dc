import CrossAsm.Expr

/-!
# CrossAsm — the symbol table

Labels and constants by name. A definition is an expression, whose value may be known only when the
program is linked, and a name is defined once. Evaluation replaces a symbol by the value of its
definition; the symbols being resolved are taken out of sight, so a definition that needs itself is
found out and evaluation ends.
-/

namespace CrossAsm

/-- A label or a constant. -/
structure Symbol where
  name : String
  value : Expr
  definition : Span
deriving DecidableEq, Repr

/-- The symbols of one source in the order of their definitions, and how many labels were made up for
synthesized code. -/
structure SymbolTable where
  symbols : List Symbol := []
  minted : Nat := 0
deriving DecidableEq, Repr

/-- What is known about a symbol during assembly. -/
inductive Knowledge where
  | constant (value : Value)
  /-- Defined, with a value that depends on the load address or on other deferred symbols. -/
  | deferred
  | undefined
deriving DecidableEq, Repr

namespace SymbolTable

/-- The definition of a name. -/
def find? (t : SymbolTable) (name : String) : Option Symbol := t.symbols.find? (·.name == name)

/-- Defines a name that has no definition yet. -/
def define (t : SymbolTable) (name : String) (value : Expr) (definition : Span) :
    Except Diagnostic SymbolTable :=
  match t.find? name with
  | some previous => .error (.redefinedSymbol name definition previous.definition)
  | none => .ok { t with symbols := t.symbols ++ [⟨name, value, definition⟩] }

/-- What is known about a name now. -/
def lookup (t : SymbolTable) (name : String) : Knowledge :=
  match t.find? name with
  | none => .undefined
  | some s =>
    match s.value.value? with
    | some v => .constant v
    | none => .deferred

/-- The name of the `n`th made-up label. No identifier of a source has angle brackets. -/
def syntheticName (n : Nat) : String := "<synthetic " ++ toString n ++ ">"

/-- The name of the next made-up label. -/
def nextLabel (t : SymbolTable) : String := syntheticName (t.minted + 1)

/-- The table after the next made-up label was handed out. -/
def mint (t : SymbolTable) : SymbolTable := { t with minted := t.minted + 1 }

/-- The definitions but that of `name`. -/
def hide (name : String) (visible : List Symbol) : List Symbol := visible.filter (·.name != name)

/-- Hiding a definition that is there leaves fewer. -/
theorem length_hide_lt {name : String} {visible : List Symbol} {s : Symbol}
    (h : visible.find? (·.name == name) = some s) : (hide name visible).length < visible.length := by
  have hname := List.find?_some h
  exact List.length_filter_lt_length_iff_exists.2
    ⟨s, List.mem_of_find?_eq_some h, by simpa using hname⟩

/-- The value of a name. Only the definitions in `visible` may be used; the others are being
resolved. -/
def valueOf (t : SymbolTable) (base : Value) (visible : List Symbol) (name : String) (usage : Span) :
    Except Diagnostic Value :=
  match _h : visible.find? (·.name == name) with
  | some s => s.value.evaluate base (valueOf t base (hide name visible))
  | none =>
    match t.find? name with
    | some s => .error (.recursiveSymbol name s.definition)
    | none => .error (.unresolvedSymbol name usage)
termination_by visible.length
decreasing_by exact length_hide_lt _h

/-- The value of an expression when the program is linked with relocatable code at `base`. -/
def evaluate (t : SymbolTable) (base : Value) (e : Expr) : Except Diagnostic Value :=
  e.evaluate base (t.valueOf base t.symbols)

end SymbolTable

end CrossAsm
