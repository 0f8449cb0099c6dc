import CrossAsm.Symbol
import CrossAsm.Width

/-!
# CrossAsm — output sections

A section is a contiguous stretch of output: the bytes emitted so far and the patches over them, which
are the values that could not be computed yet. Linking fills the patches in.
-/

namespace CrossAsm

/-- A value to be written over zero bytes when the program is linked. -/
structure Patch where
  offset : Nat
  width : Width
  expr : Expr
deriving DecidableEq, Repr

/-- Output bytes at an origin, or relocatable if there is none, with the patches over them. -/
structure Section where
  origin : Option Value := none
  data : List UInt8 := []
  patches : List Patch := []
deriving DecidableEq, Repr

namespace Section

/-- The number of bytes emitted so far. -/
def size (s : Section) : Nat := s.data.length

/-- Whether nothing was emitted yet. -/
def isEmpty (s : Section) : Bool := s.data.isEmpty

/-- Gives the section a fixed origin. -/
def setOrigin (s : Section) (origin : Value) : Section := { s with origin := some origin }

/-- The current output address: an offset if the section is relocatable. -/
def position (s : Section) : Value := s.origin.getD 0 + Value.ofNat s.size

/-- The current output address as an expression: known in a section with an origin, an offset from
its start otherwise. -/
def positionExpr (s : Section) (span : Span) : Expr :=
  match s.origin with
  | some origin => .const (origin + Value.ofNat s.size) span
  | none => .counter (Value.ofNat s.size) span

-- --------
-- Emitting
-- --------

/-- Appends bytes. -/
def emit (s : Section) (bytes : List UInt8) : Section := { s with data := s.data ++ bytes }

/-- Appends a value. A known value is written right away, cut to its width; for any other, zero bytes
are reserved and a patch is recorded over them. -/
def emitExpr (s : Section) (e : Expr) (w : Width) : Section :=
  match e.value? with
  | some v => s.emit (w.encode v)
  | none =>
    { s with
      data := s.data ++ List.replicate w.size 0
      patches := s.patches ++ [⟨s.size, w, e⟩] }

-- --------
-- Going back
-- --------

/-- How much a section held at some time. -/
structure Checkpoint where
  bytes : Nat
  patches : Nat
deriving DecidableEq, Repr

/-- How much the section holds now. -/
def checkpoint (s : Section) : Checkpoint := ⟨s.data.length, s.patches.length⟩

/-- Discards everything emitted after the checkpoint. -/
def rollback (s : Section) (c : Checkpoint) : Section :=
  { s with data := s.data.take c.bytes, patches := s.patches.take c.patches }

-- --------
-- Linking
-- --------

/-- Writes bytes over the data from an offset on. -/
def overwrite (data : List UInt8) (offset : Nat) (bytes : List UInt8) : List UInt8 :=
  data.take offset ++ bytes ++ data.drop (offset + bytes.length)

/-- The bytes of a patch, or why it cannot be filled in. -/
def fill (t : SymbolTable) (base : Value) (p : Patch) : Except Diagnostic (List UInt8) :=
  match t.evaluate base p.expr with
  | .error d => .error d
  | .ok v =>
    if p.width.fits v then .ok (p.width.encode v)
    else .error (.patchOutOfRange v p.width.bits p.width.isSigned p.expr.span)

/-- Fills in patches one after the other. The second part lists the patches that failed, in order. -/
def fillAll (t : SymbolTable) (base : Value) :
    List UInt8 → List Patch → List UInt8 × List Diagnostic
  | data, [] => (data, [])
  | data, p :: ps =>
    match fill t base p with
    | .ok bytes => fillAll t base (overwrite data p.offset bytes) ps
    | .error d =>
      let (data', errors) := fillAll t base data ps
      (data', d :: errors)

/-- The final bytes with relocatable code at `base`, or the errors of all patches that cannot be
filled in. -/
def link (s : Section) (t : SymbolTable) (base : Value) : Except (List Diagnostic) (List UInt8) :=
  match fillAll t base s.data s.patches with
  | (data, []) => .ok data
  | (_, errors) => .error errors

-- --------
-- Small laws
-- --------

@[simp] theorem size_emit (s : Section) (bytes : List UInt8) :
    (s.emit bytes).size = s.size + bytes.length := by
  simp [emit, size]

@[simp] theorem size_emitExpr (s : Section) (e : Expr) (w : Width) :
    (s.emitExpr e w).size = s.size + w.size := by
  unfold emitExpr
  split <;> simp [size, emit]

@[simp] theorem rollback_checkpoint (s : Section) : s.rollback s.checkpoint = s := by
  simp [rollback, checkpoint]

end Section

end CrossAsm
