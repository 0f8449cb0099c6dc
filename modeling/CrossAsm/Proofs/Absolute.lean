import CrossAsm.Proofs.Assembly.Likeness
import CrossAsm.Proofs.Assembly.Run

/-!
# CrossAsm — absolute programs

A program that starts with `.org` has no relocatable code: all its regions have origins, so every label, every `*` and
every label that the encoder makes up is a known address. Nothing in it depends on the base that it is linked at.

* `Expr.mentionsCounter` — an address of relocatable code occurs in an expression.
* `Likeness.absolute` — the correspondence under which a run is like itself only if no such address comes up.
* `Assembly.absolute_steps` — behind an `.org` that opens the source, a run is like itself in this way.
* `Family.linked_alike_of_startsWithOrigin` — so its program is linked alike at all bases.
-/

namespace CrossAsm

-- --------
-- Addresses of relocatable code
-- --------

/-- Whether an address of relocatable code occurs in the expression. -/
def Expr.mentionsCounter : Expr → Bool
  | .const .. | .symbol .. => false
  | .counter .. => true
  | .unary _ operand _ => operand.mentionsCounter
  | .binary _ lhs rhs _ => lhs.mentionsCounter || rhs.mentionsCounter
  | .paren inner _ => inner.mentionsCounter

theorem Expr.Like.mentionsCounter_eq {L : Likeness} {e e' : Expr} (hFixed : ¬L.relocatable) (h : e.Like L e') :
    e.mentionsCounter = false := by
  induction h with
  | const | symbol => rfl
  | counter hReloc => exact absurd hReloc hFixed
  | unary _ _ _ ih => exact ih
  | binary _ _ _ _ ih ih' => rw [Expr.mentionsCounter, ih, ih', Bool.or_false]
  | paren _ _ ih => exact ih

/-- Everything corresponds to itself but addresses of relocatable code. -/
def Likeness.absolute : Likeness :=
  .verbatimly Eq Eq False rfl @Span.hull_congr @Span.through_congr

namespace Likeness

theorem eq_of_diagnostic {d d' : Diagnostic} (h : d.Like absolute d') : d = d' := by
  have hPlaces : d.places = d'.places := List.forall₂_eq_eq_eq ▸ h.places
  rw [← d.placedAt_places, ← d'.placedAt_places, h.unplaced trivial, hPlaces]

theorem eq_of_failure {f f' : Failure} (h : f.Like absolute f') : f = f' := by
  cases h with
  | single h => rw [eq_of_diagnostic h]
  | collected h =>
    have hSame := h.imp fun _ _ => eq_of_diagnostic
    rw [List.forall₂_eq_eq_eq] at hSame
    rw [hSame]

/-- Results that are alike in this way are the same. -/
theorem eq_of_alike {α : Type} {A : α → α → Prop} {r r' : Except Failure α} (h : Alike (Failure.Like absolute) A r r')
    (hA : ∀ a b, A a b → a = b) : r = r' := by
  cases h with
  | ok h => rw [hA _ _ h]
  | error h => rw [eq_of_failure h]

/-- Tokens are no addresses. -/
theorem absolute_cursor (c : Cursor) : c.Like absolute c := by
  have hToken (t : Token) : t.Like absolute t := ⟨.refl (fun _ => rfl) t.lexeme, rfl, rfl⟩
  exact ⟨List.forall₂_same.mpr fun t _ => hToken t, hToken c.endToken⟩

end Likeness

theorem Lexeme.endsStatement_of_kind {l : Lexeme} (h : l.kind = .newline) : l.endsStatement = true := by
  cases l with
  | newline => rfl
  | _ => cases h

-- --------
-- Behind the first statement
-- --------

namespace Assembly

variable {Mnemonic Mode Feature : Type} {job : Job Mnemonic Mode Feature} {s s' : Assembly Feature}

/-- The start of a run, with tokens of the source still to be read. -/
def initial (machine : Machine Feature) (c : Cursor) : Assembly Feature := { machine, cursor := c }

/-- A region that an `.org` has opened at the start of a run. -/
theorem absolute_opened (machine : Machine Feature) (c : Cursor) (origin : Value) (span : Span) :
    ((initial machine c).opened origin span).Like .absolute ((initial machine c).opened origin span) :=
  ⟨rfl, .nil, ⟨⟨rfl, nofun, rfl, .nil⟩, rfl⟩, ⟨.nil, rfl⟩, rfl, .nil, .nil, Likeness.absolute_cursor c⟩

variable [DecidableEq Mode] [Flag Mode] [Flag Feature]

/-- An `.org` at the start of a run leaves no relocatable code. -/
theorem absolute_optionalContent {machine : Machine Feature} {c : Cursor} (hAt : atOrigin c = true) {u : Unit}
    (h : optionalContent job (initial machine c) = .ok u s') : s'.Like .absolute s' := by
  have hDirective : (initial machine c).cursor.directive? = some .origin := (Cursor.atOrigin_iff c).mp hAt
  rw [optionalContent_of_directive? hDirective] at h
  obtain ⟨origin, s₁, hConstant, hOpen⟩ := Action.bind_eq_ok.mp h
  obtain ⟨e, c', -, -, rfl⟩ := constant_eq_ok hConstant
  obtain rfl := Action.modify_eq_ok.mp hOpen
  exact absolute_opened machine c' origin _

/-- The label of the `.org` is a known address too. -/
theorem absolute_parts {machine : Machine Feature} {c : Cursor} (hAt : atOrigin c.behindLabel = true) {u : Unit}
    (h : parts job (initial machine c) = .ok u s') : s'.Like .absolute s' := by
  rw [parts_eq] at h
  split at h
  · exact absolute_optionalContent hAt h
  · next name span _ =>
    have hHere : atOrigin (initial machine c).cursor.behindLabel = true := hAt
    rw [if_pos hHere] at h
    obtain ⟨⟨⟩, s₁, hContent, hLabel⟩ := Action.bind_eq_ok.mp h
    obtain ⟨symbols, hDefine, rfl⟩ := defineLabel_eq_ok.mp hLabel
    have hs := absolute_optionalContent hAt hContent
    have hValue : (s₁.current.output.positionExpr span).Like .absolute _ := hs.current.output.positionExpr rfl
    have hSymbols := hs.symbols.define trivial (rfl : name = name) hValue (rfl : span = span)
    rw [hDefine] at hSymbols
    exact ⟨hs.machine, hs.earlier, hs.current, Alike.ok_iff.mp hSymbols, hs.listing, hs.errors, hs.reported, hs.cursor⟩

omit [DecidableEq Mode] [Flag Mode] [Flag Feature] in
/-- There is a statement in front of which the cursor stands. -/
theorem not_atStatementEnd_of_atOrigin {c : Cursor} (hAt : atOrigin c.behindLabel = true) :
    c.atStatementEnd = false := by
  unfold Cursor.atStatementEnd
  cases hLabel : c.label? with
  | some found =>
    rw [(Cursor.label?_eq_some hLabel).1]
    rfl
  | none =>
    have hHere : c.behindLabel = c := by rw [Cursor.behindLabel, hLabel]; rfl
    rw [hHere, atOrigin, Bool.and_eq_true] at hAt
    rw [Cursor.lexeme_of_isAt_mark hAt.1]
    rfl

/-- The first step of a run that starts at `.org`, and all that follow. -/
theorem absolute_steps_of_atOrigin (hJob : job.Like .absolute job) {machine : Machine Feature} {c : Cursor}
    (hAt : atOrigin c.behindLabel = true) {n : Nat} (hErrors : (steps job (n + 1) (initial machine c)).errors = []) :
    (steps job (n + 1) (initial machine c)).Like .absolute (steps job (n + 1) (initial machine c)) := by
  have hEnd := not_atStatementEnd_of_atOrigin hAt
  have hMore : ¬(initial machine c).cursor.isExhausted = true := by
    intro hNil
    obtain ⟨tokens, stop⟩ := c
    obtain rfl : tokens = [] := List.isEmpty_iff.mp hNil
    cases hEnd
  have hStart : (initial machine c).cursor.isAt .newline = false := by
    refine Bool.eq_false_iff.mpr fun hNewline => ?_
    have hEnds : c.atStatementEnd = true := Lexeme.endsStatement_of_kind (beq_iff_eq.mp hNewline)
    rw [hEnds] at hEnd
    cases hEnd
  rw [steps, if_neg hMore, step_of_statement hStart] at hErrors ⊢
  obtain ⟨s', hWhole⟩ := exists_ok_of_errors hErrors
  have hs := absolute_parts hAt (parts_of_wholeStatement hWhole).1
  rw [statement_of_ok hWhole]
  exact steps_like hJob n ⟨hs.machine, hs.earlier, hs.current, hs.symbols, rfl, hs.errors, hs.reported, hs.cursor⟩

/-- **The whole run is free of addresses of relocatable code** if it gets through an `.org` first. -/
theorem absolute_steps (hJob : job.Like .absolute job) {machine : Machine Feature} {newlines rest : List Token}
    {stop n : Nat} (hNewlines : ∀ t ∈ newlines, t.lexeme = .newline)
    (hAt : atOrigin (Cursor.behindLabel ⟨rest, stop⟩) = true)
    (hErrors : (steps job (newlines.length + (n + 1)) (initial machine ⟨newlines ++ rest, stop⟩)).errors = []) :
    (steps job (newlines.length + (n + 1)) (initial machine ⟨newlines ++ rest, stop⟩)).Like .absolute
      (steps job (newlines.length + (n + 1)) (initial machine ⟨newlines ++ rest, stop⟩)) := by
  induction newlines with
  | nil =>
    rw [List.length_nil, Nat.zero_add] at hErrors ⊢
    exact absolute_steps_of_atOrigin hJob hAt hErrors
  | cons t newlines ih =>
    obtain ⟨hNewline, hOthers⟩ := List.forall_mem_cons.mp hNewlines
    have hSkip : steps job ((t :: newlines).length + (n + 1)) (initial machine ⟨t :: newlines ++ rest, stop⟩) =
        steps job (newlines.length + (n + 1)) (initial machine ⟨newlines ++ rest, stop⟩) := by
      rw [List.length_cons, Nat.add_right_comm, steps]
      have hStep : step job (initial machine ⟨t :: newlines ++ rest, stop⟩) =
          initial machine ⟨newlines ++ rest, stop⟩ :=
        step_of_newline (by rw [Cursor.isAt]; exact beq_iff_eq.mpr (congrArg Lexeme.kind hNewline))
      rw [hStep]
      rfl
    rw [hSkip] at hErrors ⊢
    exact ih hOthers hErrors

end Assembly

-- --------
-- Programs
-- --------

/-- The first statement of the source is an `.org`, which may have a label. -/
def startsWithOrigin (source : String) : Bool :=
  match Token.scan source with
  | .error _ => false
  | .ok tokens =>
    Assembly.atOrigin (Cursor.behindLabel ⟨tokens.dropWhile (·.lexeme = .newline), source.utf8ByteSize⟩)

namespace Family

variable {Mnemonic Mode Feature : Type} [DecidableEq Mode] [Flag Mode] [Flag Feature]
  {F : Family Mnemonic Mode Feature} {machine : Machine Feature} {policy : Policy} {source : String} {p : Program}

/-- The program of such a source is like itself without addresses of relocatable code. -/
theorem absolute_of_startsWithOrigin (hF : F.Respects .absolute) (hFirst : startsWithOrigin source = true)
    (h : (F.assemble machine policy source).result = .ok p) : p.Like .absolute p := by
  obtain ⟨tokens, final, hScan, rfl, hErrors, rfl⟩ := exists_run h
  unfold startsWithOrigin at hFirst
  rw [hScan] at hFirst
  dsimp only at hFirst
  have hJob : (F.job policy source).Like .absolute (F.job policy source) :=
    ⟨rfl, hF, trivial, rfl, fun hStart => congrArg (F.job policy source).lineAt hStart⟩
  generalize hRest : tokens.dropWhile (·.lexeme = .newline) = rest at hFirst
  have hTokens := List.takeWhile_append_dropWhile (p := (·.lexeme = .newline)) (l := tokens)
  rw [hRest] at hTokens
  have hNewlines : ∀ t ∈ tokens.takeWhile (·.lexeme = .newline), t.lexeme = .newline :=
    fun t ht => of_decide_eq_true (List.all_eq_true.mp List.all_takeWhile t ht)
  generalize tokens.takeWhile (·.lexeme = .newline) = newlines at hTokens hNewlines
  cases rest with
  | nil => cases Assembly.not_atStatementEnd_of_atOrigin hFirst
  | cons t rest =>
    subst hTokens
    rw [List.length_append, List.length_cons] at hErrors ⊢
    have hFinal := Assembly.absolute_steps hJob hNewlines hFirst hErrors
    exact ⟨hFinal.regions, hFinal.symbols, rfl⟩

/-- **Absolute programs do not depend on the base.** If the first statement of a source is `.org`, no symbol and no
patch of its program mentions an address of relocatable code, and linking gives the same result at all bases, be it
an error or not. -/
theorem linked_alike_of_startsWithOrigin (hF : F.Shipped) (hFirst : startsWithOrigin source = true)
    (h : (F.assemble machine policy source).result = .ok p) :
    (∀ x ∈ p.symbols.symbols, x.value.mentionsCounter = false) ∧
    (∀ r ∈ p.regions, ∀ patch ∈ r.output.patches, patch.expr.mentionsCounter = false) ∧
    ∀ base base', p.linkSections base = p.linkSections base' ∧ p.link base = p.link base' := by
  have hp := absolute_of_startsWithOrigin (hF.respects .absolute) hFirst h
  refine ⟨fun x hx => ?_, fun r hr patch hPatch => ?_, fun base base' => ⟨?_, ?_⟩⟩
  · exact (List.forall₂_same.mp hp.symbols.symbols x hx).value.mentionsCounter_eq id
  · have hRegion := List.forall₂_same.mp hp.regions r hr
    exact (List.forall₂_same.mp hRegion.output.patches patch hPatch).expr.mentionsCounter_eq id
  · exact Likeness.eq_of_alike (hp.linkSections False.elim) fun _ _ => Block.eq_of_like fun _ _ => id
  · exact Likeness.eq_of_alike (hp.link False.elim) fun _ _ => id

set_option maxRecDepth 10000 in
/-- A jump ahead is filled in by the linker, but not from the base. -/
theorem linked_alike_of_startsWithOrigin_jump :
    startsWithOrigin "\nstart: .org $1000\njmp later\n.word start, *\nlater:" = true ∧
    ∃ p, (Mos65.family.assemble ⟨{.base}, 0, true⟩ {} "\nstart: .org $1000\njmp later\n.word start, *\nlater:").result =
        .ok p ∧
      (∀ r ∈ p.regions, ∀ patch ∈ r.output.patches, patch.expr.mentionsCounter = false) ∧
      p.link 0 = p.link 0x8000 := by
  have hFirst : startsWithOrigin "\nstart: .org $1000\njmp later\n.word start, *\nlater:" = true := by decide +kernel
  have hSome : (Mos65.family.assemble ⟨{.base}, 0, true⟩ {}
      "\nstart: .org $1000\njmp later\n.word start, *\nlater:").result.toOption.isSome = true := by decide +kernel
  obtain ⟨p, hp⟩ := Option.isSome_iff_exists.mp hSome
  obtain ⟨-, hPatches, hLink⟩ := linked_alike_of_startsWithOrigin .mos65 hFirst (Action.ok_of_toOption hp)
  exact ⟨hFirst, p, Action.ok_of_toOption hp, hPatches, (hLink 0 0x8000).2⟩

end Family

end CrossAsm
