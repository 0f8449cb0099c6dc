import CrossAsm.Token.Cursor

/-!
# CrossAsm — speculative parsing

A parser reads from a cursor and either recognises something, with the cursor behind it, or does not.
Failure leaves no cursor, so an alternative starts where the failed attempt did. Problems met on the
way are kept in both cases: a problem found by an attempt that was given up still counts.
-/

namespace CrossAsm

/-- The outcome of a parse: what was recognised, with the cursor behind it, and the problems met. -/
structure Outcome (α : Type) where
  result : Option (α × Cursor)
  problems : List Diagnostic

namespace Outcome

/-- Something was recognised without problems. -/
def done {α : Type} (a : α) (c : Cursor) : Outcome α := ⟨some (a, c), []⟩

/-- Nothing was recognised, without problems. -/
def nothing {α : Type} : Outcome α := ⟨none, []⟩

/-- The outcome with problems met before it. -/
def after {α : Type} (problems : List Diagnostic) (o : Outcome α) : Outcome α :=
  ⟨o.result, problems ++ o.problems⟩

end Outcome

/-- A parser reads from a cursor. -/
def Parser (α : Type) : Type := Cursor → Outcome α

namespace Parser

variable {α β : Type}

/-- Runs a parser. -/
def run (p : Parser α) (c : Cursor) : Outcome α := p c

/-- Recognises `a` without reading. -/
protected def pure (a : α) : Parser α := fun c => .done a c

/-- One parser behind another. -/
protected def bind (p : Parser α) (f : α → Parser β) : Parser β := fun c =>
  match p c with
  | ⟨none, problems⟩ => ⟨none, problems⟩
  | ⟨some (a, c'), problems⟩ => (f a c').after problems

instance : Monad Parser where
  pure := Parser.pure
  bind := Parser.bind

/-- Recognises nothing. -/
def fail : Parser α := fun _ => .nothing

/-- Reports a problem and recognises nothing. -/
def problem (d : Diagnostic) : Parser α := fun _ => ⟨none, [d]⟩

/-- The second parser from the same place if the first recognises nothing. -/
protected def orElse (p : Parser α) (q : Unit → Parser α) : Parser α := fun c =>
  match p c with
  | ⟨none, problems⟩ => (q () c).after problems
  | o => o

instance : OrElse (Parser α) where
  orElse := Parser.orElse

/-- Tries a parser only under a condition. -/
def when (condition : Bool) (p : Parser α) : Parser α := if condition then p else fail

/-- The current token, which stays unread. -/
def peek : Parser Token := fun c => .done c.peek c

/-- Reads the current token, whatever it is. -/
def advance : Parser Token := fun c => .done c.peek c.next

/-- Lifts an attempt of the cursor. -/
def ofOption (f : Cursor → Option (α × Cursor)) : Parser α := fun c => ⟨f c, []⟩

/-- Reads a mark. -/
def mark (m : Mark) : Parser Token := ofOption (·.eat? (.mark m))

/-- Reads a word in any letter case. -/
def word (w : String) : Parser Token := ofOption (·.eatWord? w)

/-- What a parser recognises, or `none` without reading if it recognises nothing. -/
def optional (p : Parser α) : Parser (Option α) := fun c =>
  match p c with
  | ⟨none, problems⟩ => ⟨some (none, c), problems⟩
  | ⟨some (a, c'), problems⟩ => ⟨some (some a, c'), problems⟩

/-- Recognises `a` if the operand ends here. -/
def atEnd (a : α) : Parser α := fun c => if c.atOperandEnd then .done a c else .nothing

/-- A parser chosen by the cursor it starts at. -/
def look (f : Cursor → Parser α) : Parser α := fun c => f c c

end Parser

end CrossAsm
