import CrossAsm.Policy
import CrossAsm.Token.Lexer
import Mathlib.Data.List.Forall2

/-!
# CrossAsm — what makes two runs alike

Two sources may differ in the places of their tokens, or in the letter case of their names, and still go through
the same run. A `Likeness` says which names and which places correspond. It has the laws that the run needs, and no
others, so that everything that is made of corresponding names and places corresponds again.

One source is compared with itself in the same way. If only the places inside its text correspond to themselves,
then all places that come out of the run are inside the text; if no address of relocatable code corresponds to
itself, then none comes out; if only the names in a set do, then no other name comes out where none is defined.

* `Likeness` — which names and places correspond, and `Likeness.within` — only the names in a set.
* `Alike` — two results that correspond.
* `Diagnostic.Like` — two diagnostics with the same code and with labels at corresponding places.
-/

namespace CrossAsm

/-- How the names and the places of two runs correspond. -/
structure Likeness where
  /-- The names that correspond. -/
  names : String → String → Prop
  /-- The places that correspond. -/
  spans : Span → Span → Prop
  /-- The offsets at which corresponding tokens start. -/
  starts : Nat → Nat → Prop
  /-- Whether corresponding texts are the same texts. -/
  verbatim : Prop
  /-- Whether there may be addresses of relocatable code. -/
  relocatable : Prop
  /-- Whether names may be defined. -/
  defines : Prop
  lower_eq : ∀ {a b}, names a b → Text.lower a = Text.lower b
  eq_iff : ∀ {a b a' b'}, names a b → names a' b' → (a = a' ↔ b = b')
  eq_of_verbatim : verbatim → ∀ {a b}, names a b → a = b
  /-- What no source can spell as a name corresponds to itself, as made-up labels have to. -/
  self : defines → ∀ {name}, (∀ c ∈ name.toList.head?, Token.isNameChar c = false) → names name name
  zero : spans .zero .zero
  hull : ∀ {s s' t t'}, spans s s' → spans t t' → spans (s.hull t) (s'.hull t')
  through : ∀ {s s' t t'}, spans s s' → spans t t' → spans (s.through t) (s'.through t')

/-- The same correspondence, seen from the other run. -/
def Likeness.flip (L : Likeness) : Likeness where
  names a b := L.names b a
  spans s t := L.spans t s
  starts a b := L.starts b a
  verbatim := L.verbatim
  relocatable := L.relocatable
  defines := L.defines
  lower_eq h := (L.lower_eq h).symm
  eq_iff h h' := (L.eq_iff h h').symm
  eq_of_verbatim hText _ _ h := (L.eq_of_verbatim hText h).symm
  self hDefines _ h := L.self hDefines h
  zero := L.zero
  hull h h' := L.hull h h'
  through h h' := L.through h h'

theorem Span.hull_congr {s s' t t' : Span} (h : s = s') (h' : t = t') : s.hull t = s'.hull t' := by
  rw [h, h']

theorem Span.through_congr {s s' t t' : Span} (h : s = s') (h' : t = t') : s.through t = s'.through t' := by
  rw [h, h']

/-- A correspondence of places alone: names correspond to themselves, and texts are kept. -/
def Likeness.verbatimly (spans : Span → Span → Prop) (starts : Nat → Nat → Prop) (relocatable : Prop)
    (zero : spans .zero .zero) (hull : ∀ {s s' t t'}, spans s s' → spans t t' → spans (s.hull t) (s'.hull t'))
    (through : ∀ {s s' t t'}, spans s s' → spans t t' → spans (s.through t) (s'.through t')) : Likeness where
  names := Eq
  spans := spans
  starts := starts
  verbatim := True
  relocatable := relocatable
  defines := True
  lower_eq h := congrArg Text.lower h
  eq_iff h h' := by rw [h, h']
  eq_of_verbatim _ _ _ h := h
  self _ _ _ := rfl
  zero := zero
  hull := hull
  through := through

/-- Names in a set correspond to themselves, and all places correspond. Nothing is defined. -/
def Likeness.within (N : String → Prop) : Likeness where
  names a b := a = b ∧ N a
  spans _ _ := True
  starts _ _ := True
  verbatim := False
  relocatable := True
  defines := False
  lower_eq h := congrArg Text.lower h.1
  eq_iff h h' := by rw [h.1, h'.1]
  eq_of_verbatim _ _ _ h := h.1
  self h := h.elim
  zero := trivial
  hull _ _ := trivial
  through _ _ := trivial

-- --------
-- Results
-- --------

/-- Of two options that correspond, both are there or none is. -/
theorem rel_cases {α β : Type} {A : α → β → Prop} {o : Option α} {o' : Option β} (h : Option.Rel A o o') :
    o = none ∧ o' = none ∨ ∃ a b, o = some a ∧ o' = some b ∧ A a b := by
  cases h with
  | none => exact .inl ⟨rfl, rfl⟩
  | some h => exact .inr ⟨_, _, rfl, rfl, h⟩

theorem rel_orElse {α β : Type} {A : α → β → Prop} {o p : Option α} {o' p' : Option β} (h : Option.Rel A o o')
    (hElse : Option.Rel A p p') : Option.Rel A (o <|> p) (o' <|> p') := by
  cases h with
  | none => exact hElse
  | some h => exact .some h

theorem rel_filter {α β : Type} {A : α → β → Prop} {o : Option α} {o' : Option β} {f : α → Bool} {g : β → Bool}
    (h : Option.Rel A o o') (hf : ∀ a b, A a b → f a = g b) : Option.Rel A (o.filter f) (o'.filter g) := by
  cases h with
  | none => exact .none
  | @some a b h =>
    rw [Option.filter_some, Option.filter_some, hf a b h]
    split
    · exact .some h
    · exact .none

theorem rel_map {α β γ δ : Type} {A : α → β → Prop} {C : γ → δ → Prop} {o : Option α} {o' : Option β} {f : α → γ}
    {g : β → δ} (h : Option.Rel A o o') (hf : ∀ a b, A a b → C (f a) (g b)) :
    Option.Rel C (o.map f) (o'.map g) := by
  cases h with
  | none => exact .none
  | some h => exact .some (hf _ _ h)

/-- Two results that correspond: both are there, or both are errors. -/
inductive Alike {ε ε' α β : Type} (E : ε → ε' → Prop) (A : α → β → Prop) : Except ε α → Except ε' β → Prop
  | ok {a : α} {b : β} (h : A a b) : Alike E A (.ok a) (.ok b)
  | error {d : ε} {d' : ε'} (h : E d d') : Alike E A (.error d) (.error d')

namespace Alike

variable {ε ε' α β : Type} {E : ε → ε' → Prop} {A A' : α → β → Prop} {r : Except ε α} {r' : Except ε' β}

theorem cases (h : Alike E A r r') :
    (∃ a b, r = .ok a ∧ r' = .ok b ∧ A a b) ∨ ∃ d d', r = .error d ∧ r' = .error d' ∧ E d d' := by
  cases h with
  | ok h => exact .inl ⟨_, _, rfl, rfl, h⟩
  | error h => exact .inr ⟨_, _, rfl, rfl, h⟩

@[simp] theorem ok_iff {a : α} {b : β} : Alike E A (.ok a) (.ok b) ↔ A a b := by
  constructor
  · intro h
    cases h with
    | ok h => exact h
  · exact .ok

@[simp] theorem error_iff {d : ε} {d' : ε'} : Alike E A (.error d) (.error d') ↔ E d d' := by
  constructor
  · intro h
    cases h with
    | error h => exact h
  · exact .error

theorem flip {E' : ε' → ε → Prop} {B : β → α → Prop} (h : Alike E A r r') (hE : ∀ d d', E d d' → E' d' d)
    (hA : ∀ a b, A a b → B b a) : Alike E' B r' r := by
  cases h with
  | ok h => exact .ok (hA _ _ h)
  | error h => exact .error (hE _ _ h)

theorem imp (h : Alike E A r r') (hA : ∀ a b, A a b → A' a b) : Alike E A' r r' := by
  cases h with
  | ok h => exact .ok (hA _ _ h)
  | error h => exact .error h

theorem bind {γ δ : Type} {C : γ → δ → Prop} {f : α → Except ε γ} {g : β → Except ε' δ} (h : Alike E A r r')
    (hf : ∀ a b, A a b → Alike E C (f a) (g b)) : Alike E C (r >>= f) (r' >>= g) := by
  cases h with
  | ok h => exact hf _ _ h
  | error h => exact .error h

end Alike

-- --------
-- Diagnostics
-- --------

namespace Diagnostic

/-- The diagnostic at another place. Only a redefinition has a second one. -/
def placedAt (place second : Span) : Diagnostic → Diagnostic
  | .fileNotFound name cause _ => .fileNotFound name cause place
  | .unexpectedCharacter char _ => .unexpectedCharacter char place
  | .invalidNumber fault _ => .invalidNumber fault place
  | .unexpectedEnd expected _ => .unexpectedEnd expected place
  | .expectedToken expected actual _ => .expectedToken expected actual place
  | .expectedExpression _ => .expectedExpression place
  | .loneHash _ => .loneHash place
  | .invalidConstant text kind _ => .invalidConstant text kind place
  | .unknownMnemonic name family _ => .unknownMnemonic name family place
  | .unknownDirective name _ => .unknownDirective name place
  | .missingOperand mnemonic index _ => .missingOperand mnemonic index place
  | .danglingTokens _ => .danglingTokens place
  | .invalidMode mnemonic index legal _ => .invalidMode mnemonic index legal place
  | .valueOutOfRange value low high _ => .valueOutOfRange value low high place
  | .outsideBasePage value base _ => .outsideBasePage value base place
  | .divisionByZero _ => .divisionByZero place
  | .patchOutOfRange value bits signed _ => .patchOutOfRange value bits signed place
  | .overlappingSections start previousEnd _ => .overlappingSections start previousEnd place
  | .unsupportedInstruction mnemonic required active _ => .unsupportedInstruction mnemonic required active place
  | .unsupportedMode mode required _ => .unsupportedMode mode required place
  | .synthesisDisabled mnemonic _ => .synthesisDisabled mnemonic place
  | .redefinedSymbol name _ _ => .redefinedSymbol name place second
  | .unresolvedSymbol name _ => .unresolvedSymbol name place
  | .recursiveSymbol name _ => .recursiveSymbol name place
  | .valueTooLarge value bits _ => .valueTooLarge value bits place
  | .synthesized mnemonic count _ => .synthesized mnemonic count place

/-- The diagnostic without the places it points at. -/
def unplaced (d : Diagnostic) : Diagnostic := d.placedAt .zero .zero

/-- The places that the labels of a diagnostic point at. -/
def places (d : Diagnostic) : List Span := d.labels.map Prod.snd

/-- A diagnostic is its text and its places. -/
theorem placedAt_places (d : Diagnostic) :
    d.unplaced.placedAt (d.places.getD 0 .zero) (d.places.getD 1 .zero) = d := by
  cases d <;> rfl

/-- The name that is defined twice, if this is what the diagnostic says. -/
def redefined? : Diagnostic → Option String
  | .redefinedSymbol name _ _ => some name
  | _ => none

/-- Diagnostics with the same code, at corresponding places, and with the same text where that is kept. If nothing is
defined, they are no redefinitions. -/
structure Like (L : Likeness) (d d' : Diagnostic) : Prop where
  code      : d.shortCode = d'.shortCode
  places    : List.Forall₂ L.spans d.places d'.places
  unplaced  : L.verbatim → d.unplaced = d'.unplaced
  redefined : d.redefined? = none ∨ L.defines

theorem redefined?_eq_none_iff {d : Diagnostic} : d.redefined? = none ↔ d.shortCode ≠ "redefined_symbol" := by
  cases d <;> simp [redefined?, shortCode]

/-- The code says how serious a diagnostic is. -/
theorem severity_eq (d : Diagnostic) :
    d.severity = if d.shortCode = "value_too_large" then .warning
      else if d.shortCode = "synthesized_instruction" then .advice else .error := by
  cases d <;> rfl

end Diagnostic

namespace Likeness

variable (L : Likeness)

/-- Two results that correspond, or two errors that do. -/
abbrev Results {α β : Type} (A : α → β → Prop) : Except Diagnostic α → Except Diagnostic β → Prop :=
  Alike (Diagnostic.Like L) A

/-- Two lists of diagnostics that correspond one by one. -/
abbrev Reports : List Diagnostic → List Diagnostic → Prop := List.Forall₂ (Diagnostic.Like L)

end Likeness

namespace Diagnostic.Like

variable {L : Likeness} {d d' : Diagnostic}

theorem flip (h : Like L d d') : Like L.flip d' d :=
  ⟨h.code.symm, h.places.flip, fun hText => (h.unplaced hText).symm,
    h.redefined.imp_left fun hNone => redefined?_eq_none_iff.mpr (h.code ▸ redefined?_eq_none_iff.mp hNone)⟩

theorem severity (h : Like L d d') : d.severity = d'.severity := by rw [severity_eq, severity_eq, h.code]

/-- Diagnostics with one label that differ in its place only. -/
theorem of_place {s s' : Span} (hs : L.spans s s') (hCode : d.shortCode = d'.shortCode)
    (hPlaces : d.places = [s]) (hPlaces' : d'.places = [s']) (hUnplaced : L.verbatim → d.unplaced = d'.unplaced) :
    Like L d d' := by
  refine ⟨hCode, by rw [hPlaces, hPlaces']; exact .cons hs .nil, hUnplaced, .inl ?_⟩
  cases d with
  | redefinedSymbol => cases hPlaces
  | _ => rfl

end Diagnostic.Like

/-- A policy treats corresponding diagnostics in the same way. -/
theorem Policy.judge_like {L : Likeness} {d d' : Diagnostic} (policy : Policy) (h : d.Like L d') :
    L.Results L.Reports (policy.judge d) (policy.judge d') := by
  have hCode : d.code = d'.code := congrArg (Diagnostic.codeRoot ++ ·) h.code
  have hNames : (names · d) = (names · d') := by
    funext given
    unfold names
    rw [hCode, h.code]
  have hError : policy.isError d = policy.isError d' := by
    unfold isError denies
    rw [h.severity, hNames]
  have hIgnores : policy.ignores d = policy.ignores d' := by
    unfold ignores
    rw [hNames]
  unfold judge
  rw [hError, hIgnores]
  split
  · exact .error h
  · split
    · exact .ok .nil
    · exact .ok (.cons h .nil)

end CrossAsm
