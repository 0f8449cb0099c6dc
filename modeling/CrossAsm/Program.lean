import CrossAsm.Section

/-!
# CrossAsm — assembled programs

An assembled program is its regions in source order, its symbols and its listing. Linking fills in the
patches of every region; the image is the regions side by side, with zeros in the gaps.
-/

namespace CrossAsm

/-- A section with the place in the source that opened it. -/
structure Region where
  output : Section := {}
  span : Span := .zero
deriving DecidableEq, Repr

/-- Where the output of one statement is. -/
structure ListingLine where
  /-- The source line of the statement, counted from one. -/
  line : Nat
  /-- The index of the region. -/
  region : Nat
  /-- The offset of the output in its region. -/
  offset : Nat
  /-- The number of bytes. -/
  length : Nat
deriving DecidableEq, Repr

/-- The result of assembling a source text. -/
structure Program where
  regions : List Region
  symbols : SymbolTable
  /-- One line for each statement, in source order. -/
  listing : List ListingLine
deriving DecidableEq, Repr

/-- The final bytes of a region at their address. -/
structure Block where
  address : Value
  bytes : List UInt8
  /-- The place in the source that opened the region. -/
  span : Span
deriving DecidableEq, Repr

namespace Region

/-- The address at which a region is loaded: its origin, or the base if it is relocatable. -/
def load (r : Region) (base : Value) : Value := r.output.origin.getD base

/-- Fills in the patches of a region. -/
def link (t : SymbolTable) (base : Value) (r : Region) : Except (List Diagnostic) Block :=
  match r.output.link t base with
  | .ok bytes => .ok ⟨r.load base, bytes, r.span⟩
  | .error errors => .error errors

end Region

namespace Block

/-- Lays blocks behind an image that starts at `start`, with zeros up to the address of each. A block
must not start inside the image. -/
def layOut (start : Value) : List UInt8 → List Block → Except Diagnostic (List UInt8)
  | image, [] => .ok image
  | image, b :: bs =>
    let offset := (b.address - start).toInt.toNat
    if offset < image.length then
      .error (.overlappingSections b.address (start + Value.ofNat image.length - 1) b.span)
    else layOut start (image ++ List.replicate (offset - image.length) 0 ++ b.bytes) bs

/-- Blocks side by side in the order of their addresses. Empty blocks take no place. -/
def image (blocks : List Block) : Except Diagnostic (List UInt8) :=
  match (blocks.filter (!·.bytes.isEmpty)).mergeSort (fun a b => decide (a.address ≤ b.address)) with
  | [] => .ok []
  | first :: others => layOut first.address [] (first :: others)

end Block

namespace Program

/-- Links regions one after the other. The second part lists all errors, in order. -/
def linkRegions (t : SymbolTable) (base : Value) : List Region → List Block × List Diagnostic
  | [] => ([], [])
  | r :: rs =>
    let (blocks, errors) := linkRegions t base rs
    match r.link t base with
    | .ok b => (b :: blocks, errors)
    | .error first => (blocks, first ++ errors)

/-- The bytes of every region with relocatable code at `base`, or the errors of all regions. -/
def linkSections (p : Program) (base : Value) : Except Failure (List Block) :=
  match linkRegions p.symbols base p.regions with
  | (blocks, []) => .ok blocks
  | (_, errors) => .error (.collected errors)

/-- The image of a program, from its lowest address on. -/
def link (p : Program) (base : Value) : Except Failure (List UInt8) :=
  match p.linkSections base with
  | .error f => .error f
  | .ok blocks =>
    match Block.image blocks with
    | .ok bytes => .ok bytes
    | .error d => .error (.single d)

end Program

end CrossAsm
