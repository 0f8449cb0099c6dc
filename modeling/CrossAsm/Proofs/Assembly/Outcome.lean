import CrossAsm.Proofs.Assembly.Likeness

/-!
# CrossAsm — what runs that are alike have in common

Two runs may correspond in different ways. If texts are kept, what they leave is the same up to the places in the
source. If places are kept, it is the same up to the names: the output, the listing, and the codes and places of all
diagnostics.

* `Assembled.unplaced`, `Assembled.SameButPlaces` — what a run leaves, without places.
* `Diagnostic.outline`, `Assembled.SameButNames` — what a run leaves, without its wording.
* `Assembled.Like.sameButPlaces`, `Assembled.Like.sameButNames` — what runs have in common.
-/

namespace CrossAsm

-- --------
-- Without places
-- --------

/-- The expression without the places of its nodes. -/
def Expr.unplaced : Expr → Expr
  | .const v _ => .const v .zero
  | .symbol name _ => .symbol name .zero
  | .counter offset _ => .counter offset .zero
  | .unary op operand _ => .unary op operand.unplaced .zero
  | .binary op lhs rhs _ => .binary op lhs.unplaced rhs.unplaced .zero
  | .paren inner _ => .paren inner.unplaced .zero

def Patch.unplaced (p : Patch) : Patch := { p with expr := p.expr.unplaced }

def Section.unplaced (s : Section) : Section := { s with patches := s.patches.map Patch.unplaced }

def Region.unplaced (r : Region) : Region := ⟨r.output.unplaced, .zero⟩

def Symbol.unplaced (x : Symbol) : Symbol := ⟨x.name, x.value.unplaced, .zero⟩

def SymbolTable.unplaced (t : SymbolTable) : SymbolTable := { t with symbols := t.symbols.map Symbol.unplaced }

/-- The program without places in the source. Its listing has none, since it counts lines. -/
def Program.unplaced (p : Program) : Program := ⟨p.regions.map Region.unplaced, p.symbols.unplaced, p.listing⟩

def Block.unplaced (b : Block) : Block := { b with span := .zero }

def Failure.unplaced : Failure → Failure
  | .single d => .single d.unplaced
  | .collected ds => .collected (ds.map Diagnostic.unplaced)

/-- What a run leaves, without places in the source. -/
def Assembled.unplaced (a : Assembled) : Assembled :=
  ⟨(a.result.mapError Failure.unplaced).map Program.unplaced, a.reported.map Diagnostic.unplaced⟩

-- --------
-- Without wording
-- --------

/-- The code of a diagnostic and the places of its labels. -/
def Diagnostic.outline (d : Diagnostic) : String × List Span := (d.code, d.labels.map Prod.snd)

/-- The code of a failure, and the codes and places behind it. -/
def Failure.outline (f : Failure) : String × List (String × List Span) :=
  (f.code, f.diagnostics.map Diagnostic.outline)

-- --------
-- Linking
-- --------

namespace Assembled

/-- The blocks of the program that was assembled. -/
def blocks (a : Assembled) (base : Value) : Except Failure (List Block) := do (← a.result).linkSections base

/-- The image of the program that was assembled. -/
def image (a : Assembled) (base : Value) : Except Failure (List UInt8) := do (← a.result).link base

/-- Two runs leave the same up to places in the source, and so does linking at any base. -/
structure SameButPlaces (a a' : Assembled) : Prop where
  unplaced : a.unplaced = a'.unplaced
  blocks   : ∀ base, ((a.blocks base).mapError Failure.unplaced).map (·.map Block.unplaced) =
    ((a'.blocks base).mapError Failure.unplaced).map (·.map Block.unplaced)
  image    : ∀ base, (a.image base).mapError Failure.unplaced = (a'.image base).mapError Failure.unplaced

/-- Two runs both leave a program or both fail. Their listings are the same, linking gives the same bytes at any base,
and all errors and all that is reported have the same codes at the same places. -/
structure SameButNames (a a' : Assembled) : Prop where
  result   : (a.result.mapError Failure.outline).map Program.listing =
    (a'.result.mapError Failure.outline).map Program.listing
  reported : a.reported.map Diagnostic.outline = a'.reported.map Diagnostic.outline
  blocks   : ∀ base, (a.blocks base).mapError Failure.outline = (a'.blocks base).mapError Failure.outline
  image    : ∀ base, (a.image base).mapError Failure.outline = (a'.image base).mapError Failure.outline

end Assembled

-- --------
-- What is alike
-- --------

theorem map_eq_of_forall₂ {α β γ : Type} {A : α → β → Prop} {f : α → γ} {g : β → γ} (hA : ∀ a b, A a b → f a = g b)
    {as : List α} {bs : List β} (h : List.Forall₂ A as bs) : as.map f = bs.map g := by
  induction h with
  | nil => rfl
  | cons hd _ ih => rw [List.map_cons, List.map_cons, hA _ _ hd, ih]

theorem Alike.map_eq {ε ε' α β ω γ : Type} {E : ε → ε' → Prop} {A : α → β → Prop} {r : Except ε α} {r' : Except ε' β}
    {e : ε → ω} {e' : ε' → ω} {f : α → γ} {g : β → γ} (h : Alike E A r r') (hE : ∀ d d', E d d' → e d = e' d')
    (hA : ∀ a b, A a b → f a = g b) : (r.mapError e).map f = (r'.mapError e').map g := by
  cases h with
  | ok h => exact congrArg Except.ok (hA _ _ h)
  | error h => exact congrArg Except.error (hE _ _ h)

theorem Alike.mapError_eq {ε ε' α ω : Type} {E : ε → ε' → Prop} {r : Except ε α} {r' : Except ε' α} {e : ε → ω}
    {e' : ε' → ω} (h : Alike E Eq r r') (hE : ∀ d d', E d d' → e d = e' d') : r.mapError e = r'.mapError e' := by
  cases h with
  | ok h => exact congrArg Except.ok h
  | error h => exact congrArg Except.error (hE _ _ h)

variable {L : Likeness}

section Unplaced

variable (hText : L.verbatim)

include hText

theorem Expr.Like.unplaced_eq {e e' : Expr} (h : e.Like L e') : e.unplaced = e'.unplaced := by
  induction h with
  | const | counter => rfl
  | symbol hName _ => rw [Expr.unplaced, Expr.unplaced, L.eq_of_verbatim hText hName]
  | unary _ _ _ ih => rw [Expr.unplaced, Expr.unplaced, ih]
  | binary _ _ _ _ ih ih' => rw [Expr.unplaced, Expr.unplaced, ih, ih']
  | paren _ _ ih => rw [Expr.unplaced, Expr.unplaced, ih]

theorem Region.Like.unplaced_eq {r r' : Region} (h : r.Like L r') : r.unplaced = r'.unplaced := by
  have hPatches : r.output.patches.map Patch.unplaced = r'.output.patches.map Patch.unplaced := by
    refine map_eq_of_forall₂ (fun p p' hp => ?_) h.output.patches
    rw [Patch.unplaced, Patch.unplaced, hp.offset, hp.width, hp.expr.unplaced_eq hText]
  rw [Region.unplaced, Region.unplaced, Section.unplaced, Section.unplaced, h.output.origin, h.output.data, hPatches]

theorem SymbolTable.Like.unplaced_eq {t t' : SymbolTable} (h : t.Like L t') : t.unplaced = t'.unplaced := by
  have hSymbols : t.symbols.map Symbol.unplaced = t'.symbols.map Symbol.unplaced := by
    refine map_eq_of_forall₂ (fun x x' hx => ?_) h.symbols
    rw [Symbol.unplaced, Symbol.unplaced, L.eq_of_verbatim hText hx.name, hx.value.unplaced_eq hText]
  rw [SymbolTable.unplaced, SymbolTable.unplaced, hSymbols, h.minted]

theorem Program.Like.unplaced_eq {p p' : Program} (h : p.Like L p') : p.unplaced = p'.unplaced := by
  rw [Program.unplaced, Program.unplaced, map_eq_of_forall₂ (fun _ _ hr => hr.unplaced_eq hText) h.regions,
    h.symbols.unplaced_eq hText, h.listing]

theorem Failure.Like.unplaced_eq {f f' : Failure} (h : f.Like L f') : f.unplaced = f'.unplaced := by
  cases h with
  | single h => exact congrArg Failure.single (h.unplaced hText)
  | collected h => exact congrArg Failure.collected (map_eq_of_forall₂ (fun _ _ hd => hd.unplaced hText) h)

end Unplaced

theorem Diagnostic.Like.outline_eq (hSpans : ∀ s t, L.spans s t → s = t) {d d' : Diagnostic} (h : d.Like L d') :
    d.outline = d'.outline := by
  have hPlaces := h.places.imp hSpans
  rw [List.forall₂_eq_eq_eq] at hPlaces
  exact Prod.ext (congrArg (codeRoot ++ ·) h.code) hPlaces

theorem Failure.Like.outline_eq (hSpans : ∀ s t, L.spans s t → s = t) {f f' : Failure} (h : f.Like L f') :
    f.outline = f'.outline := by
  cases h with
  | @single d d' h =>
    have hOutline := h.outline_eq hSpans
    have hCode : d.code = d'.code := congrArg Prod.fst hOutline
    exact Prod.ext hCode (congrArg (fun o => [o]) hOutline)
  | collected h => exact Prod.ext rfl (map_eq_of_forall₂ (fun _ _ hd => hd.outline_eq hSpans) h)

namespace Assembled.Like

variable {a a' : Assembled}

theorem blocks (h : a.Like L a') (base : Value) :
    Alike (Failure.Like L) (List.Forall₂ (Block.Like L)) (a.blocks base) (a'.blocks base) :=
  h.result.bind fun _ _ hp => hp.linkSections fun _ => rfl

theorem image (h : a.Like L a') (base : Value) : Alike (Failure.Like L) Eq (a.image base) (a'.image base) :=
  h.result.bind fun _ _ hp => hp.link fun _ => rfl

/-- **Runs that keep texts** leave the same up to places, also when their programs are linked. -/
theorem sameButPlaces (hText : L.verbatim) (h : a.Like L a') : a.SameButPlaces a' := by
  have hFailure (f f' : Failure) (hf : f.Like L f') : f.unplaced = f'.unplaced := hf.unplaced_eq hText
  refine ⟨?_, fun base => (h.blocks base).map_eq hFailure fun bs bs' hbs => ?_,
    fun base => (h.image base).mapError_eq hFailure⟩
  · rw [Assembled.unplaced, Assembled.unplaced, h.result.map_eq hFailure fun _ _ hp => hp.unplaced_eq hText,
      map_eq_of_forall₂ (fun _ _ hd => hd.unplaced hText) h.reported]
  · refine map_eq_of_forall₂ (fun b b' hb => ?_) hbs
    rw [Block.unplaced, Block.unplaced, hb.address, hb.bytes]

/-- **Runs that keep places** leave the same up to names, also when their programs are linked. -/
theorem sameButNames (hSpans : ∀ s t, L.spans s t → s = t) (h : a.Like L a') : a.SameButNames a' := by
  have hFailure (f f' : Failure) (hf : f.Like L f') : f.outline = f'.outline := hf.outline_eq hSpans
  have hBlocks (base : Value) : Alike (Failure.Like L) Eq (a.blocks base) (a'.blocks base) :=
    (h.blocks base).imp fun _ _ => Block.eq_of_like hSpans
  exact ⟨h.result.map_eq hFailure fun _ _ hp => hp.listing,
    map_eq_of_forall₂ (fun _ _ hd => hd.outline_eq hSpans) h.reported,
    fun base => (hBlocks base).mapError_eq hFailure, fun base => (h.image base).mapError_eq hFailure⟩

end Assembled.Like

end CrossAsm
