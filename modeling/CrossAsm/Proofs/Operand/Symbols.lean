import CrossAsm.Proofs.Expr.Symbols
import CrossAsm.Proofs.Operand.Likeness
import CrossAsm.Proofs.Reading

/-!
# CrossAsm — the symbols of operands and encodings

An operand is read from the source, so its expressions mention names of the source. Encodings and expansions are
put together from these expressions. The one name that comes from nowhere is the made-up label of an expansion.

All this follows from comparing a reading with itself, where only the names of the source correspond to themselves.

* `Delivers` — a result with a property, or an error that is no redefinition.
* `Family.Mentions` — that an expansion with a label ends where the label stands, and that nothing else in the output
  of the family depends on it.
* `Encoder.delivers_resolveOperands` — the operands of an instruction mention names of the source.
* `Family.Mentions.encodesIn`, `Family.Mentions.writesIn` — so do its encoding and its expansion.
-/

namespace CrossAsm

variable {N : String → Prop}

/-- The result has the property, and an error is no redefinition. -/
def Delivers {α : Type} (P : α → Prop) : Except Diagnostic α → Prop
  | .ok a => P a
  | .error d => d.redefined? = none

theorem Delivers.of_like {α : Type} {A : α → α → Prop} {P : α → Prop} {r : Except Diagnostic α}
    (h : (Likeness.within N).Results A r r) (hA : ∀ a, A a a → P a) : Delivers P r := by
  cases r with
  | ok a => exact hA a (Alike.ok_iff.mp h)
  | error d => exact (Alike.error_iff.mp h).redefined.resolve_right id

theorem Expr.delivers_checkRange (e : Expr) (low high : Value) : Delivers (· = e) (e.checkRange low high) := by
  unfold checkRange
  split
  · split
    · exact rfl
    · exact rfl
  · exact rfl

-- --------
-- Reading
-- --------

theorem Cursor.like_within_iff {c : Cursor} : c.Like (.within N) c ↔ c.NamesIn N := by
  constructor
  · intro h t ht name hName
    have hLexeme := (List.forall₂_same.mp h.rest t ht).lexeme
    rw [hName] at hLexeme
    cases hLexeme with
    | identifier hName => exact hName.2
    | same hNone => cases hNone
  · intro h
    refine ⟨List.forall₂_same.mpr fun t ht => ⟨?_, trivial, trivial⟩, .same rfl, trivial, trivial⟩
    cases hLexeme : t.lexeme with
    | identifier name => exact .identifier ⟨rfl, h t ht name hLexeme⟩
    | _ => exact .same rfl

theorem Scope.like_within {scope : Scope} (hCounter : scope.counter.SymbolsIn N) : scope.Like (.within N) scope :=
  ⟨fun hName => by rw [hName.1], Expr.like_within_iff.mpr hCounter, fun hName => by rw [hName.1]⟩

-- --------
-- Instructions
-- --------

section Instructions

variable {Mnemonic Mode : Type} {i : Instruction Mnemonic Mode}

/-- All symbols of the operand are in `N`. -/
def Operand.SymbolsIn (N : String → Prop) (o : Operand Mode) : Prop := ∀ e ∈ o.values, e.SymbolsIn N

theorem Operand.like_within_iff {o : Operand Mode} : o.Like (.within N) o ↔ o.SymbolsIn N := by
  constructor
  · exact fun h e he => Expr.like_within_iff.mp (List.forall₂_same.mp h.values e he)
  · exact fun h => ⟨rfl, List.forall₂_same.mpr fun e he => Expr.like_within_iff.mpr (h e he), rfl, rfl, trivial⟩

/-- All symbols of the operands are in `N`. -/
structure Instruction.SymbolsIn (N : String → Prop) (i : Instruction Mnemonic Mode) : Prop where
  first  : i.first.SymbolsIn N
  second : i.second.SymbolsIn N

namespace Instruction

theorem SymbolsIn.mono {N' : String → Prop} (h : i.SymbolsIn N) (hN : ∀ name, N name → N' name) : i.SymbolsIn N' :=
  ⟨fun e he => (h.first e he).mono hN, fun e he => (h.second e he).mono hN⟩

theorem like_within_iff : i.Like (.within N) i ↔ i.SymbolsIn N := by
  constructor
  · exact fun h => ⟨Operand.like_within_iff.mp h.first, Operand.like_within_iff.mp h.second⟩
  · exact fun h => ⟨rfl, Operand.like_within_iff.mpr h.first, Operand.like_within_iff.mpr h.second⟩

end Instruction

/-- All symbols of a value that is put out are in `N`. -/
def Item.SymbolsIn (N : String → Prop) : Item → Prop
  | .bytes _ => True
  | .value e _ => e.SymbolsIn N

/-- An encoding puts out symbols in `N` only. -/
abbrev EncodesIn (N : String → Prop) : Except Diagnostic (List Item) → Prop :=
  Delivers fun items => ∀ item ∈ items, item.SymbolsIn N

/-- The part is not the label, and all symbols that it writes are in `N`. -/
def Part.WritesIn (N : String → Prop) : Part Mnemonic Mode → Prop
  | .native i => i.SymbolsIn N
  | .bytes _ | .check .. => True
  | .label => False

/-- If there is a made-up label, it stands behind all other parts, and it stands nowhere else. -/
def Expansion.EndsWithLabel (x : Expansion Mnemonic Mode) : Prop :=
  ∃ front, .label ∉ front ∧ x.parts = front ++ if x.labelled then [.label] else []

theorem Expansion.EndsWithLabel.of_unlabelled {x : Expansion Mnemonic Mode} (h : x.labelled = false)
    (hParts : .label ∉ x.parts) : x.EndsWithLabel := by
  refine ⟨x.parts, hParts, ?_⟩
  rw [h]
  exact (List.append_nil _).symm

/-- All symbols that are written in front of the label are in `N`. -/
def Expansion.WritesIn (N : String → Prop) (x : Expansion Mnemonic Mode) : Prop :=
  ∃ front, (∀ part ∈ front, part.WritesIn N) ∧ x.parts = front ++ if x.labelled then [.label] else []

end Instructions

-- --------
-- Families
-- --------

variable {Mnemonic Mode Feature : Type} {F : Family Mnemonic Mode Feature}

/-- The made-up label counts in expansions with a label alone, and stands behind all their other parts. -/
structure Family.Mentions (F : Family Mnemonic Mode Feature) : Prop where
  respects   : ∀ L, F.Respects L
  native     : ∀ (s : Setting Feature) (label : Expr) (i : Instruction Mnemonic Mode),
    F.native { s with label } i = F.native s i
  unlabelled : ∀ {s : Setting Feature} {i : Instruction Mnemonic Mode} {x}, F.expansion? s i = some x →
    x.labelled = false → ∀ label, F.expansion? { s with label } i = some x
  parts      : ∀ {s : Setting Feature} {i : Instruction Mnemonic Mode} {x}, F.expansion? s i = some x → x.EndsWithLabel

namespace Family.Mentions

variable {s : Setting Feature} {i : Instruction Mnemonic Mode} (hF : F.Mentions) (hCounter : s.counter.SymbolsIn N)
  (hi : i.SymbolsIn N)

include hF hCounter hi

/-- **An encoding mentions what the operands do.** -/
theorem encodesIn : EncodesIn N (F.native s i) := by
  have hLabel : (Expr.const 0 .zero).Like (.within N) (.const 0 .zero) := .const 0 trivial
  have hSetting : Setting.Like (.within N) { s with label := .const 0 .zero } { s with label := .const 0 .zero } :=
    ⟨rfl, Expr.like_within_iff.mpr hCounter, hLabel⟩
  have hItems := (hF.respects _).native hSetting (Instruction.like_within_iff.mpr hi)
  rw [hF.native] at hItems
  refine .of_like hItems fun items h item hItem => ?_
  cases List.forall₂_same.mp h item hItem with
  | bytes bytes => exact trivial
  | value h w => exact Expr.like_within_iff.mp h

/-- **An expansion mentions what the operands do**, and its label. -/
theorem writesIn {x : Expansion Mnemonic Mode} (h : F.expansion? s i = some x)
    (hLabel : x.labelled = true → s.label.SymbolsIn N) : x.WritesIn N := by
  have hLike {label : Expr} (hx : F.expansion? { s with label } i = some x) (hName : label.SymbolsIn N) :
      x.Like (.within N) x := by
    have hSetting : Setting.Like (.within N) { s with label } { s with label } :=
      ⟨rfl, Expr.like_within_iff.mpr hCounter, Expr.like_within_iff.mpr hName⟩
    have hSame := (hF.respects _).expansion hSetting (Instruction.like_within_iff.mpr hi)
    rw [hx] at hSame
    cases hSame with
    | some hx => exact hx
  have hParts : x.Like (.within N) x := by
    cases hLabelled : x.labelled with
    | false => exact hLike (hF.unlabelled h hLabelled (.const 0 .zero)) (.const 0 _)
    | true => exact hLike h (hLabel hLabelled)
  obtain ⟨front, hFront, hAll⟩ := hF.parts h
  refine ⟨front, fun part hPart => ?_, hAll⟩
  have hSelf := List.forall₂_same.mp hParts.parts part (hAll ▸ List.mem_append_left _ hPart)
  cases hSelf with
  | bytes | check => exact trivial
  | native h => exact Instruction.like_within_iff.mp h
  | label => exact absurd hPart hFront

end Family.Mentions

/-- **The operands of an instruction mention names that they were read from.** -/
theorem Encoder.delivers_resolveOperands [DecidableEq Mode] [Flag Mode] (hF : F.Mentions) (machine : Machine Feature)
    {scope : Scope} (hCounter : scope.counter.SymbolsIn N) (m : Mnemonic) (implied : Option Nat) {c : Cursor}
    (hc : c.NamesIn N) :
    Delivers (fun found => found.1.SymbolsIn N ∧ found.2.1.SymbolsIn N ∧ found.2.2.NamesIn N)
      (resolveOperands F machine scope m implied c) := by
  refine .of_like (resolveOperands_like (hF.respects _) machine (Scope.like_within hCounter) m implied
    (Cursor.like_within_iff.mpr hc)) ?_
  rintro found ⟨hFirst, hSecond, hRest⟩
  exact ⟨Operand.like_within_iff.mp hFirst, Operand.like_within_iff.mp hSecond, Cursor.like_within_iff.mp hRest⟩

end CrossAsm
