import CrossAsm.Encoder
import CrossAsm.Proofs.Reading.Likeness

/-!
# CrossAsm — operands and encodings that are alike

Operands that are alike have the same mode and corresponding expressions. What a family makes of them corresponds
again if its grammar, its encodings and its expansions respect likeness.

* `Operand.Like`, `Instruction.Like`, `Item.Like`, `Expansion.Like` — what instructions become on the way.
* `Family.Respects` — what a family has to do for two runs to stay alike.
* `Encoder.resolveOperands_like` — the operands of an instruction are resolved to corresponding ones.
-/

namespace CrossAsm

variable {L : Likeness} {Mnemonic Mode Feature : Type}

-- --------
-- Operands
-- --------

namespace Operand

/-- The same mode with corresponding expressions. -/
structure Like (L : Likeness) (o o' : Operand Mode) : Prop where
  mode     : o.mode = o'.mode
  values   : List.Forall₂ (Expr.Like L) o.values o'.values
  register : o.register = o'.register
  forced   : o.forced = o'.forced
  span     : L.spans o.span o'.span

namespace Like

variable {o o' : Operand Mode} {s s' : Span}

theorem flip (h : Like L o o') : Like L.flip o' o :=
  ⟨h.mode.symm, h.values.flip.imp fun _ _ h => h.flip, h.register.symm, h.forced.symm, h.span⟩

theorem bare (mode : Mode) (hs : L.spans s s') : Like L (Operand.bare mode s) (Operand.bare mode s') :=
  ⟨rfl, .nil, rfl, rfl, hs⟩

theorem withRegister (mode : Mode) (register : UInt8) (hs : L.spans s s') :
    Like L (Operand.withRegister mode register s) (Operand.withRegister mode register s') :=
  ⟨rfl, .nil, rfl, rfl, hs⟩

theorem withValue (mode : Mode) {e e' : Expr} (h : e.Like L e') (hs : L.spans s s') :
    Like L (Operand.withValue mode e s) (Operand.withValue mode e' s') :=
  ⟨rfl, .cons h .nil, rfl, rfl, hs⟩

theorem registerCode_eq (h : Like L o o') : o.registerCode = o'.registerCode :=
  congrArg (·.getD 0) h.register

/-- What an operand does not carry is read as zero at its place. -/
theorem value (h : Like L o o') (k : Nat) : (o.value k).Like L (o'.value k) := by
  unfold Operand.value
  have hGet {es es' : List Expr} (hs : List.Forall₂ (Expr.Like L) es es') (k : Nat) :
      Option.Rel (Expr.Like L) es[k]? es'[k]? := by
    induction hs generalizing k with
    | nil => exact .none
    | cons he _ ih =>
      cases k with
      | zero => exact .some he
      | succ k => exact ih k
  rcases rel_cases (hGet h.values k) with ⟨hx, hx'⟩ | ⟨e, e', hx, hx', he⟩
  · rw [hx, hx']
    exact .const 0 h.span
  · rw [hx, hx']
    exact he

/-- The expressions are replaced. -/
theorem replaced (h : Like L o o') (mode : Mode) {es es' : List Expr} (hs : List.Forall₂ (Expr.Like L) es es') :
    Like L { o with mode, values := es } { o' with mode, values := es' } :=
  ⟨rfl, hs, h.register, h.forced, h.span⟩

end Like

section Resolution

variable [DecidableEq Mode] {grammar grammar' : Parser (Operand Mode)} (pairs : List (Mode × Mode))
  (machine : Machine Feature) (allowed : FlagSet Mode)

theorem narrow_like {o o' : Operand Mode} (h : o.Like L o') :
    Parser.Like L (Like L) (narrow pairs machine allowed o) (narrow pairs machine allowed o') := by
  have hKept : Parser.Like L (Like L) (pure o) (pure o') := .pure h
  have hForall := h.values
  unfold narrow
  rw [h.mode]
  generalize hOne : o.values = es at hForall
  generalize hTwo : o'.values = es' at hForall
  cases pairs.find? (·.1 = o'.mode) with
  | none => exact hKept
  | some pair =>
    cases hForall with
    | nil => exact hKept
    | cons hAddress hOthers =>
      dsimp only
      rw [hAddress.value?_eq]
      split
      · exact hKept
      · split
        · split
          · exact .pure (h.replaced _ (.cons (hAddress.mask 8) hOthers))
          · split
            · exact hKept
            · exact .problem (.of_place hAddress.span rfl rfl rfl fun _ => rfl)
        · split
          · exact hKept
          · exact .pure (h.replaced _ (.cons (hAddress.offsetBy _) hOthers))

theorem resolve_like (hGrammar : grammar.Like L (Like L) grammar') :
    Parser.Like L (Like L) (resolve grammar pairs machine allowed) (resolve grammar' pairs machine allowed) := by
  have hLast (o o' : Operand Mode) (h : o.Like L o') :
      Parser.Like L (Like L) (if o.mode ∈ allowed then pure o else Parser.fail)
        (if o'.mode ∈ allowed then pure o' else Parser.fail) := by
    rw [h.mode]
    split
    · exact .pure h
    · exact .fail
  refine hGrammar.bind fun matched matched' hMatched => ?_
  rw [hMatched.forced]
  split
  · exact (Parser.Like.pure hMatched).bind hLast
  · exact (narrow_like pairs machine allowed hMatched).bind hLast

end Resolution

end Operand

-- --------
-- Instructions and their encodings
-- --------

/-- The same mnemonic with corresponding operands. -/
structure Instruction.Like (L : Likeness) (i i' : Instruction Mnemonic Mode) : Prop where
  mnemonic : i.mnemonic = i'.mnemonic
  first    : i.first.Like L i'.first
  second   : i.second.Like L i'.second

theorem Instruction.Like.flip {i i' : Instruction Mnemonic Mode} (h : i.Like L i') : i'.Like L.flip i :=
  ⟨h.mnemonic.symm, h.first.flip, h.second.flip⟩

/-- The same bytes, or corresponding values of the same width. -/
inductive Item.Like (L : Likeness) : Item → Item → Prop
  | bytes (bytes : List UInt8) : Like L (.bytes bytes) (.bytes bytes)
  | value {e e' : Expr} (h : e.Like L e') (w : Width) : Like L (.value e w) (.value e' w)

theorem Item.Like.flip {item item' : Item} (h : item.Like L item') : item'.Like L.flip item := by
  cases h with
  | bytes bytes => exact .bytes bytes
  | value h w => exact .value h.flip w

@[simp] theorem Item.bytes_like (bytes : List UInt8) : (Item.bytes bytes).Like L (.bytes bytes) := .bytes bytes

@[simp] theorem Item.value_like_iff {e e' : Expr} (w : Width) :
    (Item.value e w).Like L (.value e' w) ↔ e.Like L e' := by
  constructor
  · intro h
    cases h with
    | value h => exact h
  · exact fun h => .value h w

/-- Two encodings that correspond. -/
abbrev Likeness.Encodings (L : Likeness) : Except Diagnostic (List Item) → Except Diagnostic (List Item) → Prop :=
  L.Results (List.Forall₂ (Item.Like L))

theorem Likeness.Encodings.flip {r r' : Except Diagnostic (List Item)} (h : L.Encodings r r') : L.flip.Encodings r' r :=
  Alike.flip h (fun _ _ hd => hd.flip) fun _ _ hItems => hItems.flip.imp fun _ _ hItem => hItem.flip

/-- The same step of an expansion on corresponding expressions. -/
inductive Part.Like (L : Likeness) : Part Mnemonic Mode → Part Mnemonic Mode → Prop
  | bytes (bytes : List UInt8) : Like L (.bytes bytes) (.bytes bytes)
  | check {e e' : Expr} (h : e.Like L e') (low high : Value) : Like L (.check e low high) (.check e' low high)
  | native {i i' : Instruction Mnemonic Mode} (h : i.Like L i') : Like L (.native i) (.native i')
  | label : Like L .label .label

theorem Part.Like.flip {p p' : Part Mnemonic Mode} (h : p.Like L p') : p'.Like L.flip p := by
  cases h with
  | bytes bytes => exact .bytes bytes
  | check h low high => exact .check h.flip low high
  | native h => exact .native h.flip
  | label => exact .label

/-- Expansions with corresponding parts. -/
structure Expansion.Like (L : Likeness) (x x' : Expansion Mnemonic Mode) : Prop where
  synthesized : x.synthesized = x'.synthesized
  labelled    : x.labelled = x'.labelled
  parts       : List.Forall₂ (Part.Like L) x.parts x'.parts

/-- The same features, and corresponding addresses and labels. -/
structure Setting.Like (L : Likeness) (s s' : Setting Feature) : Prop where
  features : s.features = s'.features
  counter  : s.counter.Like L s'.counter
  label    : s.label.Like L s'.label

theorem Setting.Like.flip {s s' : Setting Feature} (h : s.Like L s') : s'.Like L.flip s :=
  ⟨h.features.symm, h.counter.flip, h.label.flip⟩

theorem Setting.Like.has_eq [Flag Feature] {s s' : Setting Feature} (h : s.Like L s') (features : FlagSet Feature) :
    s.has features = s'.has features := by
  unfold Setting.has
  rw [h.features]

/-- A family looks at the lower case of its words only, and what it makes of corresponding tokens and operands
corresponds again. -/
structure Family.Respects (F : Family Mnemonic Mode Feature) (L : Likeness) : Prop where
  mnemonic : ∀ {a b}, Text.lower a = Text.lower b → F.mnemonic? a = F.mnemonic? b
  cpu      : ∀ {a b}, Text.lower a = Text.lower b → F.cpu? a = F.cpu? b
  reserved : ∀ {a b}, Text.lower a = Text.lower b → F.isReserved a = F.isReserved b
  grammar  : ∀ {scope scope'} (machine request), scope.Like L scope' →
    Parser.Like L (Operand.Like L) (F.grammar scope machine request) (F.grammar scope' machine request)
  native   : ∀ {s s' : Setting Feature} {i i' : Instruction Mnemonic Mode}, s.Like L s' → i.Like L i' →
    L.Encodings (F.native s i) (F.native s' i')
  expansion : ∀ {s s' : Setting Feature} {i i' : Instruction Mnemonic Mode}, s.Like L s' → i.Like L i' →
    Option.Rel (Expansion.Like L) (F.expansion? s i) (F.expansion? s' i')

-- --------
-- The operands of an instruction
-- --------

namespace Encoder

variable [DecidableEq Mode] [Flag Mode] {F : Family Mnemonic Mode Feature} {scope scope' : Scope}

theorem settle_like {α β : Type} {A : α → β → Prop} {problems problems' : List Diagnostic} {a : α} {b : β}
    (hProblems : L.Reports problems problems') (h : A a b) : L.Results A (settle problems a) (settle problems' b) := by
  cases hProblems with
  | nil => exact .ok h
  | cons hd _ => exact .error hd

/-- The first problem counts if there is one. -/
theorem headD_like {problems problems' : List Diagnostic} {d d' : Diagnostic}
    (hProblems : L.Reports problems problems') (hd : d.Like L d') :
    (problems.head?.getD d).Like L (problems'.head?.getD d') := by
  cases hProblems with
  | nil => exact hd
  | cons hd _ => exact hd

/-- Both operands and the cursors behind them. -/
def FoundOperands (L : Likeness) (found found' : Operand Mode × Operand Mode × Cursor) : Prop :=
  found.1.Like L found'.1 ∧ found.2.1.Like L found'.2.1 ∧ found.2.2.Like L found'.2.2

/-- **The operands of an instruction** are resolved to corresponding ones. -/
theorem resolveOperands_like (hF : F.Respects L) (machine : Machine Feature) (hScope : scope.Like L scope')
    (m : Mnemonic) (implied : Option Nat) {c c' : Cursor} (hc : c.Like L c') :
    L.Results (FoundOperands L) (resolveOperands F machine scope m implied c)
      (resolveOperands F machine scope' m implied c') := by
  have hResolve (request : Request Mode) {d d' : Cursor} (hd : d.Like L d') :=
    Operand.resolve_like F.narrowing machine request.allowed (hF.grammar machine request hScope) d d' hd
  have hAbsent := Operand.Like.bare F.noOperand hc.peek.span
  have hMode (index : Nat) (allowed : FlagSet Mode) {d d' : Cursor} (hd : d.Like L d') :
      (Diagnostic.invalidMode (F.display m) index allowed.labels d.operandSpan).Like L
        (.invalidMode (F.display m) index allowed.labels d'.operandSpan) :=
    .of_place hd.operandSpan rfl rfl rfl fun _ => rfl
  unfold resolveOperands
  dsimp only
  rcases (hResolve ⟨(F.entry m).first, (F.entry m).immediate, implied⟩ hc).cases with
    ⟨problems, problems', hRun, hRun', hProblems⟩ |
    ⟨first, first', d, d', problems, problems', hRun, hRun', hFirst, hd, hProblems⟩
  · rw [Family.resolve, Family.resolve, hRun, hRun']
    exact .error (headD_like hProblems (hMode 0 _ hc))
  · rw [Family.resolve, Family.resolve, hRun, hRun']
    cases (F.entry m).second with
    | none => exact settle_like hProblems ⟨hFirst, hAbsent, hd⟩
    | some allowed =>
      dsimp only
      rcases rel_cases (hd.eat? (.mark .comma)) with ⟨hComma, hComma'⟩ | ⟨found, found', hComma, hComma', hFound⟩
      · rw [hComma, hComma']
        dsimp only
        split
        · exact settle_like hProblems ⟨hFirst, hAbsent, hd⟩
        · exact .error (.of_place hd.peek.span rfl rfl rfl fun _ => rfl)
      · rw [hComma, hComma']
        dsimp only
        rcases (hResolve ⟨allowed, (F.entry m).immediate, implied⟩ hFound.2).cases with
          ⟨more, more', hMore, hMore', hBoth⟩ | ⟨second, second', e, e', more, more', hMore, hMore', hSecond, he, hBoth⟩
        · rw [Family.resolve, Family.resolve, hMore, hMore']
          exact .error (headD_like (List.rel_append hProblems hBoth) (hMode 1 allowed hFound.2))
        · rw [Family.resolve, Family.resolve, hMore, hMore']
          exact settle_like (List.rel_append hProblems hBoth) ⟨hFirst, hSecond, he⟩

end Encoder

end CrossAsm
