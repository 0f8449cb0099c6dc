import CrossAsm.Proofs.Operand.Likeness
import CrossAsm.Z80

/-!
# CrossAsm — Z80 instructions that are alike

What an instruction becomes depends on what its operands select, and operands that are alike select the same up to
the expressions they carry. The encodings go through many combinations, of which most are refused. It is enough to
look at those that are not: each of them corresponds to the same combination in the other run. Seen from there, the
same holds, so that what is refused in one run is refused in the other.

* `View.Like` — operands that select the same.
* `like_of_forward` — likeness from the combinations that are not refused.
-/

namespace CrossAsm.Z80

variable {L : Likeness}

-- --------
-- Names
-- --------

section Names

variable {name name' : String} (hName : Text.lower name = Text.lower name')

include hName

theorem sameWord_of_lower (word : String) : Text.sameWord name word = Text.sameWord name' word := by
  unfold Text.sameWord
  rw [hName]

theorem named?_of_lower {α : Type} (names : List (String × α)) : named? names name = named? names name' := by
  unfold named? Text.sameWord
  rw [hName]

theorem isReserved_of_lower : isReserved name = isReserved name' := by
  unfold isReserved
  simp only [named?_of_lower hName, sameWord_of_lower hName]

theorem namedOperand?_like (allowed : Modes) {s s' : Span} (hs : L.spans s s') :
    Option.Rel (Operand.Like L) (namedOperand? allowed name s) (namedOperand? allowed name' s') := by
  have hSelected {α : Type} (names : List (String × α)) (mode : Mode) (code : α → UInt8) :
      Option.Rel (Operand.Like L) ((named? names name).map fun a => Operand.withRegister mode (code a) s)
        ((named? names name').map fun a => Operand.withRegister mode (code a) s') := by
    rw [named?_of_lower hName]
    cases named? names name' with
    | none => exact .none
    | some a => exact .some (.withRegister _ _ hs)
  have hWord (word : String) (mode : Mode) : Option.Rel (Operand.Like L)
      (if Text.sameWord name word then some (.bare mode s) else none)
      (if Text.sameWord name' word then some (.bare mode s') else none) := by
    rw [sameWord_of_lower hName]
    split
    · exact .some (.bare _ hs)
    · exact .none
  have hAllowed (o o' : Operand Mode) (h : o.Like L o') : decide (o.mode ∈ allowed) = decide (o'.mode ∈ allowed) := by
    rw [h.mode]
  unfold namedOperand?
  exact rel_orElse (rel_filter (hSelected _ _ _) hAllowed)
    (rel_orElse (rel_filter (hSelected _ _ _) hAllowed)
      (rel_orElse (rel_filter (hSelected _ _ _) hAllowed)
        (rel_orElse (rel_filter (hSelected _ _ _) hAllowed)
          (rel_orElse (rel_filter (hSelected _ _ _) hAllowed)
            (rel_orElse (hWord _ _) (rel_orElse (hWord _ _)
              (rel_orElse (hSelected _ _ _) (hSelected _ _ _))))))))

end Names

-- --------
-- The grammar
-- --------

section Grammar

theorem named_like (allowed : Modes) : Parser.Like L (Operand.Like L) (named allowed) (named allowed) := by
  refine Parser.Like.advance.bind fun t t' ht => ?_
  have hNamed : Option.Rel (Operand.Like L) (t.lexeme.name?.bind (namedOperand? allowed · t.span))
      (t'.lexeme.name?.bind (namedOperand? allowed · t'.span)) := by
    rcases rel_cases ht.lexeme.name? with ⟨hx, hx'⟩ | ⟨name, name', hx, hx', hName⟩
    · rw [hx, hx']
      exact .none
    · rw [hx, hx']
      exact namedOperand?_like (L.lower_eq hName) allowed ht.span
  rcases rel_cases hNamed with ⟨hx, hx'⟩ | ⟨o, o', hx, hx', ho⟩
  · rw [hx, hx']
    exact .fail
  · rw [hx, hx']
    exact .atEnd ho

theorem registerIndirect_like : Parser.Like L (Operand.Like L) registerIndirect registerIndirect := by
  refine (Parser.Like.mark _).bind fun opening opening' hOpening => Parser.Like.advance.bind fun t t' ht =>
    (Parser.Like.mark _).bind fun closing closing' hClosing => ?_
  have hs := L.through hOpening.span hClosing.span
  dsimp only
  rcases rel_cases ht.lexeme.name? with ⟨hx, hx'⟩ | ⟨name, name', hx, hx', hName⟩
  · rw [hx, hx']
    exact .fail
  · rw [hx, hx']
    dsimp only
    rw [sameWord_of_lower (L.lower_eq hName), named?_of_lower (L.lower_eq hName)]
    split
    · exact .atEnd (.bare _ hs)
    · split
      · exact .atEnd (.withRegister _ _ hs)
      · exact .fail

variable {scope scope' : Scope} (hScope : scope.Like L scope')

include hScope

theorem displacement_like {register register' : Span} (hs : L.spans register register') :
    Parser.Like L (Expr.Like L) (displacement scope register) (displacement scope' register') := by
  refine .look fun c c' hc => ?_
  rw [hc.isAt_eq, hc.isAt_eq, hc.isAt_eq]
  split
  · exact .pure (.const _ hs)
  · split
    · exact Parser.Like.advance.bind fun _ _ _ => Expr.parse_like hScope 0
    · exact (Expr.parse_like hScope 0).when _

theorem indexed_like : Parser.Like L (Operand.Like L) (indexed scope) (indexed scope') := by
  refine (Parser.Like.mark _).bind fun opening opening' hOpening => Parser.Like.advance.bind fun t t' ht => ?_
  have hNamed : t.lexeme.name?.bind (named? Index.names) = t'.lexeme.name?.bind (named? Index.names) := by
    rcases rel_cases ht.lexeme.name? with ⟨hx, hx'⟩ | ⟨name, name', hx, hx', hName⟩
    · rw [hx, hx']
    · rw [hx, hx']
      exact named?_of_lower (L.lower_eq hName) Index.names
  rw [hNamed]
  split
  · exact .fail
  · exact (displacement_like hScope ht.span).bind fun distance distance' hDistance =>
      (Parser.Like.mark _).bind fun closing closing' hClosing =>
        .atEnd ⟨rfl, .cons hDistance .nil, rfl, rfl, L.through hOpening.span hClosing.span⟩

variable (allowed : Modes)

theorem memory_like : Parser.Like L (Operand.Like L) (memory scope allowed) (memory scope' allowed) := by
  refine (Expr.parse_like hScope 0).bind fun address address' hAddress => ?_
  dsimp only
  rw [hAddress.isParen_eq]
  split
  · exact .atEnd (.withValue _ hAddress.stripParen hAddress.span)
  · exact .fail

theorem plain_like : Parser.Like L (Operand.Like L) (plain scope allowed) (plain scope' allowed) :=
  (Expr.parse_like hScope 0).bind fun _ _ hValue => .pure (.withValue _ hValue hValue.span)

theorem grammar_like (machine : Machine Feature) (request : Request Mode) :
    Parser.Like L (Operand.Like L) (grammar scope machine request) (grammar scope' machine request) := by
  have hParenthesized : Parser.Like L (Operand.Like L) (parenthesized scope request.allowed)
      (parenthesized scope' request.allowed) :=
    registerIndirect_like.orElse
      (((indexed_like hScope).when _).orElse ((memory_like hScope request.allowed).when _))
  refine .look fun c c' hc => ?_
  rw [hc.atOperandEnd_eq, hc.isAt_eq]
  split
  · exact .when _ (.pure (.bare _ hc.peek.span))
  · exact (named_like request.allowed).orElse
      ((hParenthesized.when _).orElse (plain_like hScope request.allowed))

end Grammar

-- --------
-- Views
-- --------

/-- The same is selected, up to the expression that comes with it. -/
inductive View.Like (L : Likeness) : View → View → Prop
  | absent : Like L .absent .absent
  | register (r : Reg) : Like L (.register r) (.register r)
  | pair (p : Pair) : Like L (.pair p) (.pair p)
  | index (x : Index) : Like L (.index x) (.index x)
  | special (sr : SpecialReg) : Like L (.special sr) (.special sr)
  | indirect (p : Pair) : Like L (.indirect p) (.indirect p)
  | indexed (x : Index) {e e' : Expr} (h : e.Like L e') : Like L (.indexed x e) (.indexed x e')
  | memory {e e' : Expr} (h : e.Like L e') : Like L (.memory e) (.memory e')
  | ioPort {e e' : Expr} (h : e.Like L e') : Like L (.ioPort e) (.ioPort e')
  | ioPortC : Like L .ioPortC .ioPortC
  | immediate {e e' : Expr} (h : e.Like L e') : Like L (.immediate e) (.immediate e')
  | address {e e' : Expr} (h : e.Like L e') : Like L (.address e) (.address e')
  | relative {e e' : Expr} (h : e.Like L e') : Like L (.relative e) (.relative e')
  | condition (cc : Condition) : Like L (.condition cc) (.condition cc)
  | accumulatorFlags : Like L .accumulatorFlags .accumulatorFlags
  | alternateFlags : Like L .alternateFlags .alternateFlags

theorem view_like {o o' : Operand Mode} (h : o.Like L o') : (view o).Like L (view o') := by
  have hValue := h.value 0
  unfold view
  rw [h.mode, h.registerCode_eq]
  cases o'.mode with
  | registerIndirect =>
    dsimp only
    split
    · exact .register _
    · exact .indirect _
  | _ => constructor <;> assumption

section Encoding

variable {s s' : Setting Feature} {i i' : Instr}

/-- Both have the same condition, and targets that are alike. -/
theorem conditional_like (h : i.Like L i') :
    ∃ cc target target', conditional i = (cc, target) ∧ conditional i' = (cc, target') ∧ target.Like L target' := by
  have hFirst := view_like h.first
  unfold conditional
  rw [h.second.mode]
  generalize view i.first = v at hFirst
  generalize view i'.first = v' at hFirst
  cases hFirst with
  | condition cc =>
    dsimp only
    split
    · exact ⟨_, _, _, rfl, rfl, h.first⟩
    · exact ⟨_, _, _, rfl, rfl, h.second⟩
  | _ => exact ⟨_, _, _, rfl, rfl, h.first⟩

theorem unencodable_like (h : i.Like L i') : (unencodable i).Like L (unencodable i') := by
  unfold unencodable
  rw [h.mnemonic, h.second.mode]
  by_cases hNone : i'.second.mode = .none
  · simp only [if_pos hNone]
    exact .of_place h.first.span rfl rfl rfl fun _ => rfl
  · simp only [if_neg hNone]
    exact .of_place h.second.span rfl rfl rfl fun _ => rfl

theorem requireNext_like (hs : s.Like L s') {o o' : Operand Mode} (h : o.Like L o') {items items' : List Item}
    (hItems : List.Forall₂ (Item.Like L) items items') :
    L.Encodings (requireNext s o items) (requireNext s' o' items') := by
  unfold requireNext
  dsimp only
  rw [hs.has_eq, h.mode]
  split
  · exact .ok hItems
  · exact .error (.of_place h.span rfl rfl rfl fun _ => rfl)

-- --------
-- Combinations of operands
-- --------

/-- What is not refused corresponds to what the same combination becomes in the other run. -/
def Forward {α : Type} (R : Likeness → α → α → Prop) (refusal : Instr → α) (f : Setting Feature → Instr → α) : Prop :=
  ∀ {L : Likeness} {s s' : Setting Feature} {i i' : Instr}, s.Like L s' → i.Like L i' →
    f s i = refusal i ∨ R L (f s i) (f s' i')

/-- **Likeness from the combinations that are not refused.** Both runs take the part of the first one in turn. -/
theorem like_of_forward {α : Type} {R : Likeness → α → α → Prop} {refusal : Instr → α}
    {f : Setting Feature → Instr → α} (hf : Forward R refusal f)
    (hFlip : ∀ {L a b}, R L.flip a b → R L b a)
    (hRefusal : ∀ {L : Likeness} {i i' : Instr}, i.Like L i' → R L (refusal i) (refusal i'))
    (hs : s.Like L s') (h : i.Like L i') : R L (f s i) (f s' i') := by
  rcases hf hs h with hOne | hBoth
  · rcases hf hs.flip h.flip with hTwo | hBoth
    · rw [hOne, hTwo]
      exact hRefusal h
    · exact hFlip hBoth
  · exact hBoth

/-- An encoding that refuses what it has no opcode for. -/
abbrev EncodesForward (f : Setting Feature → Instr → Except Diagnostic (List Item)) : Prop :=
  Forward Likeness.Encodings (fun i => .error (unencodable i)) f

theorem encodings_of_forward {f : Setting Feature → Instr → Except Diagnostic (List Item)} (hf : EncodesForward f)
    (hs : s.Like L s') (h : i.Like L i') : L.Encodings (f s i) (f s' i') :=
  like_of_forward hf (fun h => Likeness.Encodings.flip h) (fun h => .error (unencodable_like h)) hs h

theorem opcode_like (bytes : List UInt8) : L.Encodings (.ok [.bytes bytes]) (.ok [.bytes bytes]) :=
  .ok (.cons (.bytes bytes) .nil)

theorem opcodeValue_like (bytes : List UInt8) {e e' : Expr} (h : e.Like L e') (w : Width) :
    L.Encodings (.ok [.bytes bytes, .value e w]) (.ok [.bytes bytes, .value e' w]) :=
  .ok (.cons (.bytes bytes) (.cons (.value h w) .nil))

theorem indexedItems_like (x : Index) (opcode : UInt8) {e e' : Expr} (h : e.Like L e') :
    List.Forall₂ (Item.Like L) (indexedItems x opcode e) (indexedItems x opcode e') :=
  .cons (.bytes _) (.cons (.value h _) .nil)

theorem forward_loadItems : EncodesForward fun _ i => loadItems i := by
  intro L s s' i i' _ h
  have hFirst := view_like h.first
  have hSecond := view_like h.second
  dsimp only
  unfold loadItems
  generalize view i.first = v at hFirst
  generalize view i'.first = v' at hFirst
  generalize view i.second = w at hSecond
  generalize view i'.second = w' at hSecond
  split
  case h_27 => exact .inl rfl
  all_goals
    cases hFirst
    cases hSecond
    simp [indexedItems, *]

theorem stackItems_like (h : i.Like L i') (opcode : UInt8) :
    L.Encodings (stackItems i opcode) (stackItems i' opcode) := by
  have hNone := unencodable_like h
  have hFirst := view_like h.first
  unfold stackItems
  generalize view i.first = v at hFirst
  generalize view i'.first = v' at hFirst
  cases hFirst with
  | pair p =>
    split
    · exact .error hNone
    · exact opcode_like _
    · exact opcode_like _
    · exact opcode_like _
    · exact .error hNone
  | accumulatorFlags => exact opcode_like _
  | index x => exact opcode_like _
  | _ => exact .error hNone

theorem pushItems_like (hs : s.Like L s') (h : i.Like L i') : L.Encodings (pushItems s i) (pushItems s' i') := by
  have hFirst := view_like h.first
  unfold pushItems
  generalize view i.first = v at hFirst
  generalize view i'.first = v' at hFirst
  cases hFirst with
  | immediate he => exact requireNext_like hs h.first (.cons (.bytes _) (.cons (.value he _) .nil))
  | _ => exact stackItems_like h _

theorem forward_exchangeItems : EncodesForward fun _ i => exchangeItems i := by
  intro L s s' i i' _ h
  have hFirst := view_like h.first
  have hSecond := view_like h.second
  dsimp only
  unfold exchangeItems
  generalize view i.first = v at hFirst
  generalize view i'.first = v' at hFirst
  generalize view i.second = w at hSecond
  generalize view i'.second = w' at hSecond
  split
  case h_5 => exact .inl rfl
  all_goals
    cases hFirst
    cases hSecond
    exact .inr (opcode_like _)

theorem aluOperands_like (h : i.Like L i') :
    (aluOperands i).1.Like L (aluOperands i').1 ∧ (aluOperands i).2.Like L (aluOperands i').2 := by
  have hFirst := view_like h.first
  have hSecond := view_like h.second
  unfold aluOperands
  generalize view i.second = w at hSecond
  generalize view i'.second = w' at hSecond
  cases hSecond with
  | absent => exact ⟨.register _, hFirst⟩
  | indexed x he => exact ⟨hFirst, .indexed x he⟩
  | _ => exact ⟨hFirst, by constructor <;> assumption⟩

theorem forward_aluItems (op : Alu) : EncodesForward fun s i => aluItems s i op := by
  intro L s s' i i' hs h
  obtain ⟨hTarget, hSource⟩ := aluOperands_like h
  have hNext {items items' : List Item} (hItems : List.Forall₂ (Item.Like L) items items') :=
    requireNext_like hs h.first hItems
  dsimp only
  unfold aluItems
  generalize aluOperands i = operands at hTarget hSource
  generalize aluOperands i' = operands' at hTarget hSource
  obtain ⟨target', source'⟩ := operands'
  split
  case h_12 => exact .inl rfl
  case h_7 => exact .inl rfl
  all_goals
    cases hTarget
    cases hSource
  · exact .inr (opcode_like _)
  · exact .inr (opcodeValue_like _ ‹_› _)
  · exact .inr (.ok (indexedItems_like _ _ ‹_›))
  · exact .inr (opcode_like _)
  · exact .inr (opcode_like _)
  · exact .inr (opcode_like _)
  · simp [*]
  · dsimp only
    split
    · exact .inr (opcode_like _)
    · exact .inl rfl
  · simp only
    split
    · exact .inr (hNext (.cons (.bytes _) .nil))
    · exact .inl rfl
  · simp only
    split
    · exact .inr (hNext (.cons (.bytes _) (.cons (.value ‹_› _) .nil)))
    · exact .inl rfl

theorem incrementItems_like (h : i.Like L i') (register pair index : UInt8) :
    L.Encodings (incrementItems i register pair index) (incrementItems i' register pair index) := by
  have hFirst := view_like h.first
  unfold incrementItems
  generalize view i.first = v at hFirst
  generalize view i'.first = v' at hFirst
  cases hFirst with
  | register | pair | index => exact opcode_like _
  | indexed x he => exact .ok (indexedItems_like x _ he)
  | _ => exact .error (unencodable_like h)

theorem shiftItems_like (h : i.Like L i') (op : Shift) : L.Encodings (shiftItems i op) (shiftItems i' op) := by
  have hFirst := view_like h.first
  unfold shiftItems
  generalize view i.first = v at hFirst
  generalize view i'.first = v' at hFirst
  cases hFirst with
  | register => exact opcode_like _
  | indexed x he => exact .ok (List.rel_append (indexedItems_like x _ he) (.cons (.bytes _) .nil))
  | _ => exact .error (unencodable_like h)

theorem bitItems_like (h : i.Like L i') (op : BitOp) : L.Encodings (bitItems i op) (bitItems i' op) := by
  have hSecond := view_like h.second
  unfold bitItems
  rcases ((h.first.value 0).checkRange 0 7).cases with ⟨bit, bit', hOk, hOk', hBit⟩ | ⟨d, d', hBad, hBad', hd⟩
  · have hOpcode (r : Reg) :=
      (Expr.Like.const (Value.ofNat (op.opcode ||| r.code).toNat) hBit.span).mkOr (hBit.shift 3)
    rw [hOk, hOk']
    generalize view i.second = v at hSecond
    generalize view i'.second = v' at hSecond
    cases hSecond with
    | register r => exact opcodeValue_like _ (hOpcode r) _
    | indexed x he => exact .ok (List.rel_append (indexedItems_like x _ he) (.cons (.value (hOpcode .m) _) .nil))
    | _ => exact .error (unencodable_like h)
  · rw [hBad, hBad']
    exact .error hd

/-- Without a condition, JP has three kinds of targets; with one, only an address. -/
theorem forward_jumpItems : EncodesForward fun _ i => jumpItems i := by
  intro L s s' i i' _ h
  obtain ⟨cc, target, target', hOne, hTwo, hTarget⟩ := conditional_like h
  have hView := view_like hTarget
  dsimp only
  unfold jumpItems
  rw [hOne, hTwo]
  cases cc with
  | none =>
    dsimp only
    generalize view target = v at hView
    generalize view target' = v' at hView
    split
    · cases hView
      exact .inr (opcodeValue_like _ ‹_› _)
    · cases hView
      exact .inr (opcode_like _)
    · cases hView with
      | indexed x he =>
        dsimp only
        rw [he.value?_eq]
        split
        · exact .inr (opcode_like _)
        · exact .inl rfl
    · exact .inl rfl
  | some cc =>
    dsimp only
    generalize view target = v at hView
    generalize view target' = v' at hView
    cases hView with
    | address he => exact .inr (opcodeValue_like _ he _)
    | _ => exact .inl rfl

theorem relativeItems_like (hs : s.Like L s') (h : i.Like L i') (opcode : UInt8) :
    L.Encodings (relativeItems s i opcode) (relativeItems s' i' opcode) := by
  have hNone := unencodable_like h
  obtain ⟨cc, target, target', hOne, hTwo, hTarget⟩ := conditional_like h
  have hView := view_like hTarget
  unfold relativeItems
  rw [hOne, hTwo]
  dsimp only
  generalize view target = v at hView
  generalize view target' = v' at hView
  cases hView with
  | relative he =>
    have hDistance := he.relativeTo hs.counter 2
    cases cc with
    | none => exact opcodeValue_like _ hDistance _
    | some cc =>
      dsimp only
      split
      · exact opcodeValue_like _ hDistance _
      · exact .error hNone
  | _ => exact .error hNone

theorem callItems_like (h : i.Like L i') : L.Encodings (callItems i) (callItems i') := by
  obtain ⟨cc, target, target', hOne, hTwo, hTarget⟩ := conditional_like h
  have hView := view_like hTarget
  unfold callItems
  rw [hOne, hTwo]
  dsimp only
  generalize view target = v at hView
  generalize view target' = v' at hView
  cases hView with
  | address he =>
    cases cc with
    | none => exact opcodeValue_like _ he _
    | some cc => exact opcodeValue_like _ he _
  | _ => exact .error (unencodable_like h)

theorem returnItems_like (h : i.Like L i') : List.Forall₂ (Item.Like L) (returnItems i) (returnItems i') := by
  have hFirst := view_like h.first
  unfold returnItems
  generalize view i.first = v at hFirst
  generalize view i'.first = v' at hFirst
  cases hFirst with
  | condition cc => exact .cons (.bytes _) .nil
  | _ => exact .cons (.bytes _) .nil

/-- An opcode that is selected by a constant. -/
theorem selected_like {e e' : Expr} (h : e.Like L e') (choices : List (Value × UInt8)) (kind : String)
    (lead : List UInt8) :
    L.Encodings (do let opcode ← selected e choices kind; return [.bytes (lead ++ [opcode])])
      (do let opcode ← selected e' choices kind; return [.bytes (lead ++ [opcode])]) := by
  unfold selected
  rw [h.value?_eq]
  split
  · exact opcode_like _
  · exact .error (.of_place h.span rfl rfl rfl fun hText => by rw [h.text_eq hText]; rfl)

theorem forward_inputItems : EncodesForward fun _ i => inputItems i := by
  intro L s s' i i' _ h
  have hFirst := view_like h.first
  have hSecond := view_like h.second
  dsimp only
  unfold inputItems
  generalize view i.first = v at hFirst
  generalize view i'.first = v' at hFirst
  generalize view i.second = w at hSecond
  generalize view i'.second = w' at hSecond
  split
  · cases hFirst
    cases hSecond with
    | ioPort he => exact .inr (opcodeValue_like _ he _)
  · cases hFirst
    cases hSecond
    simp
  · exact .inl rfl

theorem forward_outputItems : EncodesForward fun _ i => outputItems i := by
  intro L s s' i i' _ h
  have hFirst := view_like h.first
  have hSecond := view_like h.second
  dsimp only
  unfold outputItems
  generalize view i.first = v at hFirst
  generalize view i'.first = v' at hFirst
  generalize view i.second = w at hSecond
  generalize view i'.second = w' at hSecond
  split
  · cases hSecond
    cases hFirst with
    | ioPort he => exact .inr (opcodeValue_like _ he _)
  · cases hFirst
    cases hSecond
    exact .inr (opcode_like _)
  · exact .inl rfl

theorem forward_nextItems : EncodesForward fun _ i => nextItems i := by
  intro L s s' i i' _ h
  have hFirst := view_like h.first
  have hSecond := view_like h.second
  dsimp only
  unfold nextItems
  generalize view i.first = v at hFirst
  generalize view i'.first = v' at hFirst
  generalize view i.second = w at hSecond
  generalize view i'.second = w' at hSecond
  split
  · cases hFirst with
    | immediate hr =>
      cases hSecond with
      | immediate he => exact .inr (.ok (.cons (.bytes _) (.cons (.value hr _) (.cons (.value he _) .nil))))
  · cases hSecond
    cases hFirst with
    | immediate hr => exact .inr (opcodeValue_like _ hr _)
  · exact .inl rfl

theorem forward_multiplyItems : EncodesForward fun _ i => multiplyItems i := by
  intro L s s' i i' _ h
  have hFirst := view_like h.first
  have hSecond := view_like h.second
  dsimp only
  unfold multiplyItems
  generalize view i.first = v at hFirst
  generalize view i'.first = v' at hFirst
  generalize view i.second = w at hSecond
  generalize view i'.second = w' at hSecond
  split
  · cases hFirst
    cases hSecond
    exact .inr (opcode_like _)
  · exact .inl rfl

theorem native_like (hs : s.Like L s') (h : i.Like L i') : L.Encodings (native s i) (native s' i') := by
  have hForward {f : Setting Feature → Instr → Except Diagnostic (List Item)} (hf : EncodesForward f) :=
    encodings_of_forward hf hs h
  unfold native
  rw [h.mnemonic]
  cases i'.mnemonic with
  | ld => exact hForward forward_loadItems
  | push => exact pushItems_like hs h
  | pop => exact stackItems_like h _
  | ex => exact hForward forward_exchangeItems
  | alu op => exact hForward (forward_aluItems op)
  | inc => exact incrementItems_like h _ _ _
  | dec => exact incrementItems_like h _ _ _
  | shift op => exact shiftItems_like h op
  | bit op => exact bitItems_like h op
  | jp => exact hForward forward_jumpItems
  | jr => exact relativeItems_like hs h _
  | djnz => exact relativeItems_like hs h _
  | call => exact callItems_like h
  | ret => exact .ok (returnItems_like h)
  | rst => exact selected_like (h.first.value 0) _ _ []
  | im => exact selected_like (h.first.value 0) _ _ [0xed]
  | input => exact hForward forward_inputItems
  | output => exact hForward forward_outputItems
  | implied op => exact opcode_like _
  | nextreg => exact hForward forward_nextItems
  | mul => exact hForward forward_multiplyItems
  | test => exact opcodeValue_like _ (h.first.value 0) _

-- --------
-- Expansions
-- --------

/-- The parts of an expansion, if there is one. -/
abbrev PartsLike (L : Likeness) (parts parts' : Option (List (Part Mnemonic Mode))) : Prop :=
  Option.Rel (List.Forall₂ (Part.Like L)) parts parts'

/-- An expansion of some combinations. -/
abbrev ExpandsForward (f : Setting Feature → Instr → Option (List (Part Mnemonic Mode))) : Prop :=
  Forward PartsLike (fun _ => none) f

theorem parts_of_forward {f : Setting Feature → Instr → Option (List (Part Mnemonic Mode))} (hf : ExpandsForward f)
    (hs : s.Like L s') (h : i.Like L i') : PartsLike L (f s i) (f s' i') := by
  refine like_of_forward hf (fun {L a b} h => ?_) (fun _ => .none) hs h
  cases h with
  | none => exact .none
  | some h => exact .some (h.flip.imp fun _ _ hPart => hPart.flip)

theorem part_like (m : Mnemonic) {first first' second second' : Operand Mode} (hFirst : first.Like L first')
    (hSecond : second.Like L second') : (part m first second).Like L (part m first' second') :=
  .native ⟨rfl, hFirst, hSecond⟩

theorem registerOperand_like (r : Reg) {p p' : Span} (hp : L.spans p p') :
    (registerOperand r p).Like L (registerOperand r p') := by
  unfold registerOperand
  split
  · exact .withRegister _ _ hp
  · exact .withRegister _ _ hp

theorem displaced_like {o o' : Operand Mode} (h : o.Like L o') (offset : Value) :
    (displaced o offset).Like L (displaced o' offset) :=
  ⟨h.mode, .cons ((h.value 0).offsetBy offset) .nil, h.register, h.forced, h.span⟩

theorem forward_copyPair : ExpandsForward fun _ i => copyPair i := by
  intro L s s' i i' _ h
  have hFirst := view_like h.first
  have hSecond := view_like h.second
  have hAbsent := Operand.Like.bare Mode.none h.first.span
  have hHalf (r : Reg) := registerOperand_like r h.first.span
  have hStack : List.Forall₂ (Part.Like L)
      [part .push i.second (.bare .none i.first.span), part .pop i.first (.bare .none i.first.span)]
      [part .push i'.second (.bare .none i'.first.span), part .pop i'.first (.bare .none i'.first.span)] :=
    .cons (part_like _ h.second hAbsent) (.cons (part_like _ h.first hAbsent) .nil)
  dsimp only
  unfold copyPair
  generalize view i.first = v at hFirst
  generalize view i'.first = v' at hFirst
  generalize view i.second = w at hSecond
  generalize view i'.second = w' at hSecond
  dsimp only
  split
  case h_5 => exact .inl rfl
  all_goals
    cases hFirst
    cases hSecond
    dsimp only
  · split
    · exact .inl rfl
    · exact .inr (.some (.cons (part_like _ (hHalf _) (hHalf _)) (.cons (part_like _ (hHalf _) (hHalf _)) .nil)))
  · split
    · exact .inl rfl
    · exact .inr (.some hStack)
  · split
    · exact .inl rfl
    · exact .inr (.some hStack)
  · exact .inr (.some hStack)

theorem forward_movePair : ExpandsForward fun _ i => movePair i := by
  intro L s s' i i' _ h
  have hFirst := view_like h.first
  have hSecond := view_like h.second
  have hAbsent := Operand.Like.bare Mode.none h.first.span
  have hHalf (r : Reg) := registerOperand_like r h.first.span
  have hStep (m : Mnemonic) {o o' : Operand Mode} (ho : o.Like L o') :=
    part_like m (Operand.Like.withRegister Mode.pair Pair.hl.code ho.span) hAbsent
  dsimp only
  unfold movePair
  generalize view i.first = v at hFirst
  generalize view i'.first = v' at hFirst
  generalize view i.second = w at hSecond
  generalize view i'.second = w' at hSecond
  dsimp only
  split
  case h_3 => exact .inl rfl
  all_goals
    cases hFirst
    cases hSecond
    simp only
  · split
    · exact .inr (.some (.cons (part_like _ (hHalf _) h.second) (.cons (hStep _ h.second)
        (.cons (part_like _ (hHalf _) h.second) (.cons (hStep _ h.second) .nil)))))
    · exact .inl rfl
  · split
    · exact .inr (.some (.cons (part_like _ h.first (hHalf _)) (.cons (hStep _ h.first)
        (.cons (part_like _ h.first (hHalf _)) (.cons (hStep _ h.first) .nil)))))
    · exact .inl rfl

theorem forward_moveIndexed : ExpandsForward fun _ i => moveIndexed i := by
  intro L s s' i i' _ h
  have hFirst := view_like h.first
  have hSecond := view_like h.second
  have hHalf (r : Reg) := registerOperand_like r h.first.span
  dsimp only
  unfold moveIndexed
  generalize view i.first = v at hFirst
  generalize view i'.first = v' at hFirst
  generalize view i.second = w at hSecond
  generalize view i'.second = w' at hSecond
  dsimp only
  split
  case h_3 => exact .inl rfl
  all_goals
    cases hFirst
    cases hSecond
    dsimp only
  · split
    · exact .inr (.some (.cons (part_like _ (hHalf _) h.second)
        (.cons (part_like _ (hHalf _) (displaced_like h.second 1)) .nil)))
    · exact .inl rfl
  · split
    · exact .inr (.some (.cons (part_like _ h.first (hHalf _))
        (.cons (part_like _ (displaced_like h.first 1) (hHalf _)) .nil)))
    · exact .inl rfl

theorem shiftPair_like (h : i.Like L i') (op : Shift) : PartsLike L (shiftPair i op) (shiftPair i' op) := by
  have hFirst := view_like h.first
  have hAbsent := Operand.Like.bare Mode.none h.first.span
  have hHalf (m : Mnemonic) (r : Reg) := part_like m (registerOperand_like r h.first.span) hAbsent
  unfold shiftPair
  generalize view i.first = v at hFirst
  generalize view i'.first = v' at hFirst
  cases hFirst with
  | pair p =>
    dsimp only
    split
    · exact .none
    · split
      · exact .some (.cons (hHalf _ _) (.cons (hHalf _ _) .nil))
      · exact .some (.cons (hHalf _ _) (.cons (hHalf _ _) .nil))
  | _ => exact .none

/-- A jump over another one, and the label behind both. -/
theorem forward_conditionalJump : ExpandsForward conditionalJump := by
  intro L s s' i i' hs h
  obtain ⟨cc, target, target', hOne, hTwo, hTarget⟩ := conditional_like h
  have hView := view_like hTarget
  unfold conditionalJump
  rw [hOne, hTwo]
  cases cc with
  | none => exact .inl rfl
  | some cc =>
    have hLabel (mode : Mode) := Operand.Like.withValue mode hs.label h.first.span
    have hInverse := Operand.Like.withRegister Mode.condition cc.inverse.code h.first.span
    have hSkip : Part.Like L
        (if cc.inverse.isShort then
          part .jr (.withRegister .condition cc.inverse.code i.first.span) (.withValue .relative s.label i.first.span)
        else part .jp (.withRegister .condition cc.inverse.code i.first.span)
            (.withValue .address s.label i.first.span))
        (if cc.inverse.isShort then
          part .jr (.withRegister .condition cc.inverse.code i'.first.span)
            (.withValue .relative s'.label i'.first.span)
        else part .jp (.withRegister .condition cc.inverse.code i'.first.span)
            (.withValue .address s'.label i'.first.span)) := by
      split
      · exact part_like _ hInverse (hLabel _)
      · exact part_like _ hInverse (hLabel _)
    have hParts := List.Forall₂.cons hSkip
      (.cons (part_like .jp hTarget (Operand.Like.bare Mode.none h.first.span)) (.cons .label .nil))
    dsimp only
    generalize view target = v at hView
    generalize view target' = v' at hView
    split
    · cases hView
      exact .inr (.some hParts)
    · cases hView
      exact .inr (.some hParts)
    · exact .inl rfl

theorem farJump_like (h : i.Like L i') : PartsLike L (farJump i) (farJump i') := by
  obtain ⟨cc, target, target', hOne, hTwo, hTarget⟩ := conditional_like h
  have hView := view_like hTarget
  unfold farJump
  rw [hOne, hTwo]
  cases cc with
  | none => exact .none
  | some cc =>
    dsimp only
    generalize view target = v at hView
    generalize view target' = v' at hView
    cases hView with
    | relative he =>
      dsimp only
      split
      · exact .none
      · exact .some (.cons (part_like _ (.withRegister _ _ h.first.span) (.withValue _ he hTarget.span)) .nil)
    | _ => exact .none

theorem expansion?_like (hs : s.Like L s') (h : i.Like L i') :
    Option.Rel (Expansion.Like L) (expansion? s i) (expansion? s' i') := by
  have hExpansion (labelled : Bool) {parts parts' : Option (List (Part Mnemonic Mode))}
      (hp : PartsLike L parts parts') :
      Option.Rel (Expansion.Like L) (parts.map (⟨true, labelled, ·⟩)) (parts'.map (⟨true, labelled, ·⟩)) :=
    rel_map hp fun _ _ hParts => ⟨rfl, rfl, hParts⟩
  unfold expansion?
  rw [h.mnemonic]
  cases i'.mnemonic with
  | ld =>
    exact hExpansion false (rel_orElse (parts_of_forward forward_copyPair hs h)
      (rel_orElse (parts_of_forward forward_movePair hs h) (parts_of_forward forward_moveIndexed hs h)))
  | shift op => exact hExpansion false (shiftPair_like h op)
  | jp => exact hExpansion true (parts_of_forward forward_conditionalJump hs h)
  | jr => exact hExpansion false (farJump_like h)
  | _ => exact .none

end Encoding

-- --------
-- The family
-- --------

/-- **The Z80 family** respects every likeness. -/
theorem family_respects (L : Likeness) : family.Respects L where
  mnemonic h := by
    show Mnemonic.ofName? _ = Mnemonic.ofName? _
    unfold Mnemonic.ofName?
    rw [h]
  cpu h := by
    show cpu? _ = cpu? _
    unfold cpu?
    rw [h]
  reserved h := isReserved_of_lower h
  grammar machine request hScope := grammar_like hScope machine request
  native hs h := native_like hs h
  expansion hs h := expansion?_like hs h

end CrossAsm.Z80
