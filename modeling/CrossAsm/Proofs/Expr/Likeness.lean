import CrossAsm.Proofs.Likeness
import CrossAsm.Section

/-!
# CrossAsm — expressions that are alike

Corresponding expressions have the same shape. They differ in the places of their nodes and in the names of
symbols, and nothing that is computed from them depends on more. So they are folded in the same way and evaluate to
the same value under corresponding definitions, at the same base; at any base if they mention no address of
relocatable code.

* `Expr.Like` — corresponding expressions, with one lemma for each way to build them.
* `SymbolTable.Like` — corresponding definitions.
* `SymbolTable.evaluate_like` — corresponding expressions evaluate alike.
-/

namespace CrossAsm

variable {L : Likeness}

-- --------
-- Expressions
-- --------

namespace Expr

/-- Expressions of the same shape whose names and places correspond. -/
inductive Like (L : Likeness) : Expr → Expr → Prop
  | const (v : Value) {s s' : Span} (hs : L.spans s s') : Like L (.const v s) (.const v s')
  | symbol {name name' : String} {s s' : Span} (hName : L.names name name') (hs : L.spans s s') :
      Like L (.symbol name s) (.symbol name' s')
  | counter (h : L.relocatable) (offset : Value) {s s' : Span} (hs : L.spans s s') :
      Like L (.counter offset s) (.counter offset s')
  | unary (op : UnaryOp) {e e' : Expr} {s s' : Span} (h : Like L e e') (hs : L.spans s s') :
      Like L (.unary op e s) (.unary op e' s')
  | binary (op : BinaryOp) {e e' f f' : Expr} {s s' : Span} (h : Like L e e') (h' : Like L f f')
      (hs : L.spans s s') : Like L (.binary op e f s) (.binary op e' f' s')
  | paren {e e' : Expr} {s s' : Span} (h : Like L e e') (hs : L.spans s s') :
      Like L (.paren e s) (.paren e' s')

namespace Like

variable {e e' f f' : Expr}

theorem flip (h : Like L e e') : Like L.flip e' e := by
  induction h with
  | const v hs => exact .const v hs
  | symbol hName hs => exact .symbol hName hs
  | counter h offset hs => exact .counter (L := L.flip) h offset hs
  | unary op _ hs ih => exact .unary op ih hs
  | binary op _ _ hs ih ih' => exact .binary op ih ih' hs
  | paren _ hs ih => exact .paren ih hs

theorem span (h : Like L e e') : L.spans e.span e'.span := by
  cases h <;> assumption

theorem value?_eq (h : Like L e e') : e.value? = e'.value? := by
  induction h with
  | paren _ _ ih => exact ih
  | _ => rfl

theorem isConstant_eq (h : Like L e e') : e.isConstant = e'.isConstant := by
  rw [← isSome_value?, ← isSome_value?, h.value?_eq]

theorem isParen_eq (h : Like L e e') : e.isParen = e'.isParen := by
  cases h <;> rfl

theorem stripParen (h : Like L e e') : Like L e.stripParen e'.stripParen := by
  cases h with
  | paren h _ => exact h
  | const v hs => exact .const v hs
  | symbol hName hs => exact .symbol hName hs
  | counter h offset hs => exact .counter h offset hs
  | unary op h hs => exact .unary op h hs
  | binary op h h' hs => exact .binary op h h' hs

theorem withSpan (h : Like L e e') {s s' : Span} (hs : L.spans s s') : Like L (e.withSpan s) (e'.withSpan s') := by
  cases h with
  | const v _ => exact .const v hs
  | symbol hName _ => exact .symbol hName hs
  | counter h offset _ => exact .counter h offset hs
  | unary op h _ => exact .unary op h hs
  | binary op h h' _ => exact .binary op h h' hs
  | paren h _ => exact .paren h hs

/-- Where texts are kept, corresponding expressions are written in the same way. -/
theorem text_eq (hText : L.verbatim) (h : Like L e e') : e.text = e'.text := by
  induction h with
  | const | counter => rfl
  | symbol hName _ => exact L.eq_of_verbatim hText hName
  | unary op _ _ ih => rw [Expr.text, Expr.text, ih]
  | binary op _ _ _ ih ih' => rw [Expr.text, Expr.text, ih, ih']
  | paren _ _ ih => rw [Expr.text, Expr.text, ih]

-- Building with folding.

theorem mkUnary (op : UnaryOp) (h : Like L e e') {s s' : Span} (hs : L.spans s s') :
    Like L (mkUnary op e s) (mkUnary op e' s') := by
  unfold Expr.mkUnary
  rw [h.value?_eq]
  cases e'.value? with
  | some v => exact .const _ hs
  | none => exact .unary op h hs

theorem mkBinary? (op : BinaryOp) (h : Like L e e') (h' : Like L f f') :
    Option.Rel (Like L) (mkBinary? op e f) (mkBinary? op e' f') := by
  have hs := L.hull h.span h'.span
  unfold Expr.mkBinary?
  rw [h.value?_eq, h'.value?_eq]
  dsimp only
  cases e'.value? with
  | none => exact .some (.binary op h h' hs)
  | some a =>
    cases f'.value? with
    | none => exact .some (.binary op h h' hs)
    | some b =>
      dsimp only
      cases op.apply a b with
      | none => exact .none
      | some v => exact .some (.const v hs)

theorem mkBinary (op : BinaryOp) (h : Like L e e') (h' : Like L f f') :
    Like L (mkBinary op e f) (mkBinary op e' f') := by
  have hs := L.hull h.span h'.span
  unfold Expr.mkBinary
  rw [h.value?_eq, h'.value?_eq]
  dsimp only
  cases e'.value? with
  | none => exact .binary op h h' hs
  | some a =>
    cases f'.value? with
    | none => exact .binary op h h' hs
    | some b => exact .const _ hs

theorem mask (h : Like L e e') (bits : Nat) : Like L (e.mask bits) (e'.mask bits) :=
  h.mkBinary .and (.const _ h.span)

theorem shift (h : Like L e e') (amount : Value) : Like L (e.shift amount) (e'.shift amount) := by
  unfold Expr.shift
  split
  · exact h.mkBinary .shiftLeft (.const _ h.span)
  · exact h.mkBinary .shiftRight (.const _ h.span)

theorem offsetBy (h : Like L e e') (offset : Value) : Like L (e.offsetBy offset) (e'.offsetBy offset) := by
  unfold Expr.offsetBy
  split
  · exact h
  · exact (h.mkBinary .add (.const _ h.span)).withSpan h.span

theorem mkOr (h : Like L e e') (h' : Like L f f') : Like L (e.mkOr f) (e'.mkOr f') :=
  (h.mkBinary .or h').withSpan h.span

/-- Two addresses of relocatable code have a known distance in both runs or in none. -/
theorem relativeTo (h : Like L e e') (h' : Like L f f') (adjustment : Value) :
    Like L (e.relativeTo f adjustment) (e'.relativeTo f' adjustment) := by
  have hGeneral : Like L ((Expr.mkBinary .subtract e (Expr.mkBinary .add f (.const adjustment e.span))).withSpan e.span)
      ((Expr.mkBinary .subtract e' (Expr.mkBinary .add f' (.const adjustment e'.span))).withSpan e'.span) :=
    (h.mkBinary .subtract (h'.mkBinary .add (.const _ h.span))).withSpan h.span
  cases h with
  | counter hReloc target hs =>
    cases h' with
    | counter _ start _ => exact .const _ hs
    | _ => exact hGeneral
  | _ => exact hGeneral

theorem checkRange (h : Like L e e') (low high : Value) :
    L.Results (Like L) (e.checkRange low high) (e'.checkRange low high) := by
  unfold Expr.checkRange
  rw [h.value?_eq]
  cases e'.value? with
  | none => exact .ok h
  | some v =>
    dsimp only
    split
    · exact .ok h
    · exact .error (.of_place h.span rfl rfl rfl fun _ => rfl)

-- Evaluation.

/-- Corresponding expressions evaluate alike if their symbols do. The base counts only where there is relocatable
code. -/
theorem evaluate {base base' : Value} {lookup lookup' : String → Span → Except Diagnostic Value}
    (hBase : L.relocatable → base = base')
    (hLookup : ∀ {name name' s s'}, L.names name name' → L.spans s s' →
      L.Results Eq (lookup name s) (lookup' name' s'))
    (h : Like L e e') : L.Results Eq (e.evaluate base lookup) (e'.evaluate base' lookup') := by
  induction h with
  | const v _ => exact .ok rfl
  | symbol hName hs => exact hLookup hName hs
  | counter hReloc offset _ => exact .ok (by rw [hBase hReloc])
  | paren _ _ ih => exact ih
  | unary op _ _ ih =>
    unfold Expr.evaluate
    rcases ih.cases with ⟨v, _, hv, hv', rfl⟩ | ⟨d, d', hd, hd', hError⟩
    · rw [hv, hv']
      exact .ok rfl
    · rw [hd, hd']
      exact .error hError
  | @binary op e e' f f' s s' _ h' _ ih ih' =>
    unfold Expr.evaluate
    rcases ih.cases with ⟨v, _, hv, hv', rfl⟩ | ⟨d, d', hd, hd', hError⟩
    · rw [hv, hv']
      dsimp only
      rcases ih'.cases with ⟨w, _, hw, hw', rfl⟩ | ⟨d, d', hd, hd', hError⟩
      · rw [hw, hw']
        dsimp only
        cases op.apply v w with
        | some u => exact .ok rfl
        | none => exact .error (.of_place h'.span rfl rfl rfl fun _ => rfl)
      · rw [hd, hd']
        exact .error hError
    · rw [hd, hd']
      exact .error hError

end Like

end Expr

-- --------
-- Definitions
-- --------

/-- Corresponding definitions of corresponding names. -/
structure Symbol.Like (L : Likeness) (x x' : Symbol) : Prop where
  name       : L.names x.name x'.name
  value      : x.value.Like L x'.value
  definition : L.spans x.definition x'.definition

namespace SymbolTable

/-- Tables with corresponding definitions in the same order, and with as many made-up labels. -/
structure Like (L : Likeness) (t t' : SymbolTable) : Prop where
  symbols : List.Forall₂ (Symbol.Like L) t.symbols t'.symbols
  minted  : t.minted = t'.minted

variable {name name' : String} {t t' : SymbolTable} {base base' : Value}

/-- Corresponding names are found at the same place of corresponding lists. -/
theorem find?_like (hName : L.names name name') {xs xs' : List Symbol}
    (h : List.Forall₂ (Symbol.Like L) xs xs') :
    Option.Rel (Symbol.Like L) (xs.find? (·.name == name)) (xs'.find? (·.name == name')) := by
  induction h with
  | nil => exact .none
  | @cons x x' xs xs' hx _ ih =>
    have hSame : (x.name == name) = (x'.name == name') := by
      rw [Bool.eq_iff_iff, beq_iff_eq, beq_iff_eq]
      exact L.eq_iff hx.name hName
    rw [List.find?_cons, List.find?_cons, hSame]
    cases x'.name == name' with
    | true => exact .some hx
    | false => exact ih

theorem valueOf_of_find? {visible : List Symbol} {x : Symbol} (h : visible.find? (·.name == name) = some x)
    (usage : Span) :
    t.valueOf base visible name usage = x.value.evaluate base (t.valueOf base (hide name visible)) := by
  rw [valueOf]
  split
  · next y hy => rw [Option.some.inj (hy.symm.trans h)]
  · next hNone => cases hNone.symm.trans h

theorem valueOf_of_hidden {visible : List Symbol} (h : visible.find? (·.name == name) = none) (usage : Span) :
    t.valueOf base visible name usage =
      match t.find? name with
      | some x => .error (.recursiveSymbol name x.definition)
      | none => .error (.unresolvedSymbol name usage) := by
  rw [valueOf]
  split
  · next x hx => cases hx.symm.trans h
  · rfl

/-- What is hidden is so in both lists. -/
theorem hide_like (hName : L.names name name') {xs xs' : List Symbol}
    (h : List.Forall₂ (Symbol.Like L) xs xs') :
    List.Forall₂ (Symbol.Like L) (hide name xs) (hide name' xs') := by
  refine List.rel_filter (fun x x' hx => ?_) h
  simp only [bne_iff_ne, ne_eq]
  rw [L.eq_iff hx.name hName]

namespace Like

theorem find? (h : Like L t t') (hName : L.names name name') :
    Option.Rel (Symbol.Like L) (t.find? name) (t'.find? name') := find?_like hName h.symbols

/-- The same is known about corresponding names. -/
theorem lookup_eq (h : Like L t t') (hName : L.names name name') : t.lookup name = t'.lookup name' := by
  unfold lookup
  rcases rel_cases (h.find? hName) with ⟨hx, hx'⟩ | ⟨x, x', hx, hx', hLike⟩
  · rw [hx, hx']
  · rw [hx, hx']
    dsimp only
    rw [hLike.value.value?_eq]

theorem define (hDefines : L.defines) (h : Like L t t') (hName : L.names name name') {value value' : Expr} (hValue : value.Like L value')
    {s s' : Span} (hs : L.spans s s') :
    L.Results (Like L) (t.define name value s) (t'.define name' value' s') := by
  unfold SymbolTable.define
  rcases rel_cases (h.find? hName) with ⟨hx, hx'⟩ | ⟨x, x', hx, hx', hLike⟩
  · rw [hx, hx']
    exact .ok ⟨List.rel_append h.symbols (.cons ⟨hName, hValue, hs⟩ .nil), h.minted⟩
  · rw [hx, hx']
    refine .error ⟨rfl, .cons hs (.cons hLike.definition .nil), fun hText => ?_, .inr hDefines⟩
    rw [L.eq_of_verbatim hText hName]
    rfl

theorem mint (h : Like L t t') : Like L t.mint t'.mint := ⟨h.symbols, congrArg (· + 1) h.minted⟩

/-- Made-up labels are no names of a source, so they correspond to themselves. -/
theorem nextLabel (hDefines : L.defines) (h : Like L t t') : L.names t.nextLabel t'.nextLabel := by
  unfold SymbolTable.nextLabel
  rw [h.minted]
  refine L.self hDefines fun c hc => ?_
  have hFirst : (syntheticName (t'.minted + 1)).toList.head? = some '<' := by
    unfold syntheticName
    rw [String.toList_append, String.toList_append]
    rfl
  rw [hFirst] at hc
  obtain rfl := Option.some.inj hc
  rfl

/-- Corresponding names have the same value, or none for the same reason. -/
theorem valueOf (h : Like L t t') (hBase : L.relocatable → base = base') {xs xs' : List Symbol}
    (hVisible : List.Forall₂ (Symbol.Like L) xs xs') (hName : L.names name name') {s s' : Span}
    (hs : L.spans s s') : L.Results Eq (t.valueOf base xs name s) (t'.valueOf base' xs' name' s') := by
  -- The induction is on the definitions that are still in sight, as in the definition of `valueOf`.
  induction hLength : xs.length using Nat.strongRecOn generalizing xs xs' name name' s s' with
  | _ n ih =>
    rcases rel_cases (find?_like hName hVisible) with ⟨hx, hx'⟩ | ⟨x, x', hx, hx', hLike⟩
    · rw [valueOf_of_hidden hx, valueOf_of_hidden hx']
      rcases rel_cases (h.find? hName) with ⟨hy, hy'⟩ | ⟨y, y', hy, hy', hDefined⟩
      · rw [hy, hy']
        refine .error (.of_place hs rfl rfl rfl fun hText => ?_)
        rw [L.eq_of_verbatim hText hName]
        rfl
      · rw [hy, hy']
        refine .error (.of_place hDefined.definition rfl rfl rfl fun hText => ?_)
        rw [L.eq_of_verbatim hText hName]
        rfl
    · rw [valueOf_of_find? hx, valueOf_of_find? hx']
      refine hLike.value.evaluate hBase fun hName' hs' => ?_
      exact ih _ (hLength ▸ length_hide_lt hx) (hide_like hName hVisible) hName' hs' rfl

/-- **Corresponding expressions evaluate alike** under corresponding definitions. -/
theorem evaluate (h : Like L t t') (hBase : L.relocatable → base = base') {e e' : Expr} (he : e.Like L e') :
    L.Results Eq (t.evaluate base e) (t'.evaluate base' e') :=
  he.evaluate hBase fun hName hs => h.valueOf hBase h.symbols hName hs

end Like

end SymbolTable

end CrossAsm
