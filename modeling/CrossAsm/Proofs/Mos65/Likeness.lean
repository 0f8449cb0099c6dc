import CrossAsm.Mos65
import CrossAsm.Proofs.Operand.Likeness

/-!
# CrossAsm — 65xx instructions that are alike

The grammar decides by lexemes, the encodings by modes and by values that are known. Both are the same in runs that
are alike.
-/

namespace CrossAsm.Mos65

variable {L : Likeness}

-- --------
-- The grammar
-- --------

section Grammar

variable {scope scope' : Scope} (machine : Machine Feature) (request : Request Mode)

theorem pageRelative_like {address address' : Expr} (h : address.Like L address') :
    Parser.Like L (Expr.Like L) (pageRelative machine address) (pageRelative machine address') := by
  unfold pageRelative
  rw [h.value?_eq]
  split
  · split
    · exact .pure (h.mask 8)
    · exact .problem (.of_place h.span rfl rfl rfl fun _ => rfl)
  · exact .pure (h.offsetBy _)

theorem accumulator_like : Parser.Like L (Operand.Like L) accumulator accumulator :=
  (Parser.Like.word _).bind fun _ _ hRegister => .atEnd (.bare _ hRegister.span)

variable (hScope : scope.Like L scope')

include hScope

theorem immediate_like : Parser.Like L (Operand.Like L) (immediate scope request) (immediate scope' request) := by
  refine Parser.Like.advance.bind fun hash hash' hHash => ?_
  refine .bind (.orElse (Expr.parse_like hScope 0) (.problem (.of_place hHash.span rfl rfl rfl fun _ => rfl))) ?_
  exact fun value value' hValue => .pure (.withValue _ hValue (L.through hHash.span hValue.span))

theorem indirect_like : Parser.Like L (Operand.Like L) (indirect scope machine) (indirect scope' machine) := by
  refine (Parser.Like.mark _).bind fun opening opening' hOpening =>
    (Expr.parse_like hScope 0).bind fun pointer pointer' hPointer =>
      (Parser.Like.mark _).optional.bind fun comma comma' hComma => ?_
  cases hComma with
  | some _ =>
    refine (Parser.Like.word _).optional.bind fun index index' hIndex => ?_
    cases hIndex with
    | some _ =>
      exact (Parser.Like.mark _).bind fun _ _ hClosing =>
        .atEnd (.withValue _ hPointer (L.through hOpening.span hClosing.span))
    | none =>
      exact (Parser.Like.word _).bind fun _ _ _ => (Parser.Like.mark _).bind fun _ _ _ =>
        (Parser.Like.mark _).bind fun _ _ _ => (Parser.Like.word _).bind fun _ _ hIndex =>
          .pure (.withValue _ hPointer (L.through hOpening.span hIndex.span))
  | none =>
    refine (Parser.Like.mark _).bind fun closing closing' hClosing =>
      (Parser.Like.mark _).optional.bind fun comma comma' hComma => ?_
    cases hComma with
    | none => exact .atEnd (.withValue _ hPointer (L.through hOpening.span hClosing.span))
    | some _ =>
      refine (Parser.Like.word _).optional.bind fun index index' hIndex => ?_
      cases hIndex with
      | some hIndex =>
        exact (pageRelative_like machine hPointer).bind fun _ _ hPage =>
          .pure (.withValue _ hPage (L.through hOpening.span hIndex.span))
      | none =>
        exact (Parser.Like.word _).bind fun _ _ hIndex => (pageRelative_like machine hPointer).bind fun _ _ hPage =>
          .pure (.withValue _ hPage (L.through hOpening.span hIndex.span))

theorem longIndirect_like :
    Parser.Like L (Operand.Like L) (longIndirect scope machine) (longIndirect scope' machine) := by
  refine (Parser.Like.mark _).bind fun opening opening' hOpening =>
    (Expr.parse_like hScope 0).bind fun pointer pointer' hPointer =>
      (Parser.Like.mark _).bind fun closing closing' hClosing =>
        (Parser.Like.mark _).optional.bind fun comma comma' hComma => ?_
  have hLast (last last' : Token) (h : Token.Like L last last') : Parser.Like L (Operand.Like L)
      (pageRelative machine pointer >>= fun pointer =>
        pure (Operand.withValue Mode.indirectLongZ pointer (opening.span.through last.span)))
      (pageRelative machine pointer' >>= fun pointer =>
        pure (Operand.withValue Mode.indirectLongZ pointer (opening'.span.through last'.span))) :=
    (pageRelative_like machine hPointer).bind fun _ _ hPage =>
      .pure (.withValue _ hPage (L.through hOpening.span h.span))
  cases hComma with
  | some _ => exact (Parser.Like.word _).bind hLast
  | none => exact (Parser.Like.pure hClosing).bind hLast

theorem bitNumber_like {start start' : Span} (hs : L.spans start start') :
    Parser.Like L (Expr.Like L) (bitNumber scope request start) (bitNumber scope' request start') := by
  unfold bitNumber
  split
  · exact .pure (.const _ hs)
  · exact (Expr.parse_like hScope 0).bind fun _ _ hBit => (Parser.Like.mark _).bind fun _ _ _ => .pure hBit

theorem bitOperand_like :
    Parser.Like L (Operand.Like L) (bitOperand scope machine request) (bitOperand scope' machine request) := by
  refine Parser.Like.peek.bind fun start start' hStart =>
    (bitNumber_like request hScope hStart.span).bind fun bit bit' hBit =>
      (Expr.parse_like hScope 0).bind fun plain plain' hPlain =>
        (pageRelative_like machine hPlain).bind fun address address' hAddress => ?_
  split
  · exact (Parser.Like.mark _).bind fun _ _ _ => (Expr.parse_like hScope 0).bind fun target target' hTarget =>
      .pure ⟨rfl, .cons hBit (.cons hAddress (.cons hTarget .nil)), rfl, rfl, L.through hStart.span hTarget.span⟩
  · exact .pure ⟨rfl, .cons hBit (.cons hAddress .nil), rfl, rfl, L.through hStart.span hAddress.span⟩

omit hScope in
theorem widthMark_like : Parser.Like L Eq widthMark widthMark :=
  ((Parser.Like.mark _).bind fun _ _ _ => .pure rfl).orElse
    ((((Parser.Like.mark _).orElse (.mark _)).bind fun _ _ _ => .pure rfl).orElse (.pure rfl))

/-- The same modes, and places that correspond. -/
def IndexLike (L : Likeness) (found found' : Mode × Mode × Span) : Prop :=
  found.1 = found'.1 ∧ found.2.1 = found'.2.1 ∧ L.spans found.2.2 found'.2.2

omit hScope in
theorem indexed_like : Parser.Like L (IndexLike L) indexed indexed :=
  (Parser.Like.mark _).bind fun _ _ _ =>
    ((Parser.Like.word _).bind fun _ _ hr => .pure ⟨rfl, rfl, hr.span⟩).orElse
      ((Parser.Like.word _).bind fun _ _ hr => .pure ⟨rfl, rfl, hr.span⟩)

theorem plain_like (allowed : Modes) :
    Parser.Like L (Operand.Like L) (plain scope allowed) (plain scope' allowed) := by
  refine Parser.Like.peek.bind fun start start' hStart => widthMark_like.bind fun width width' hWidth =>
    (Expr.parse_like hScope 0).bind fun value value' hValue => ?_
  subst hWidth
  split
  · exact .pure ⟨rfl, .cons hValue .nil, rfl, rfl, L.through hStart.span hValue.span⟩
  · refine .bind (.orElse indexed_like (.pure ⟨rfl, rfl, hValue.span⟩)) fun found found' hFound => ?_
    obtain ⟨wide, narrow, last⟩ := found
    obtain ⟨wide', narrow', last'⟩ := found'
    obtain ⟨rfl, rfl, hLast⟩ := hFound
    have hs := L.through hStart.span hLast
    cases width with
    | unmarked => exact .pure (.withValue _ hValue hs)
    | wide => exact .pure ⟨rfl, .cons hValue .nil, rfl, rfl, hs⟩
    | narrow => exact .pure ⟨rfl, .cons (hValue.mask 8) .nil, rfl, rfl, hs⟩

theorem grammar_like :
    Parser.Like L (Operand.Like L) (grammar scope machine request) (grammar scope' machine request) := by
  refine .look fun c c' hc => ?_
  rw [hc.atOperandEnd_eq, hc.isAt_eq]
  split
  · exact .when _ (.pure (.bare _ hc.peek.span))
  · refine accumulator_like.orElse ?_
    split
    · exact immediate_like request hScope
    · split
      · exact bitOperand_like machine request hScope
      · exact ((indirect_like machine hScope).when _).orElse
          (((longIndirect_like machine hScope).when _).orElse (plain_like hScope request.allowed))

end Grammar

-- --------
-- Encodings
-- --------

section Encoding

variable {s s' : Setting Feature} {i i' : Instr} {o o' : Operand Mode}

theorem operandItems_like (h : o.Like L o') : List.Forall₂ (Item.Like L) (operandItems o) (operandItems o') := by
  unfold operandItems
  rw [h.mode]
  split
  · exact .cons (.value (h.value 0) _) .nil
  · exact .nil

theorem unencodable_like (h : i.Like L i') : (unencodable i).Like L (unencodable i') := by
  unfold unencodable
  rw [h.mnemonic]
  exact .of_place h.first.span rfl rfl rfl fun _ => rfl

theorem lacking_like (h : o.Like L o') (required : Features) : (lacking o required).Like L (lacking o' required) := by
  unfold lacking
  rw [h.mode]
  exact .of_place h.span rfl rfl rfl fun _ => rfl

theorem aluItems_like (h : i.Like L i') (op : Alu) : L.Encodings (aluItems i op) (aluItems i' op) := by
  have hItems := operandItems_like h.first
  unfold aluItems
  dsimp only
  rw [h.first.mode]
  split
  · exact .ok (.cons (.bytes _) hItems)
  · exact .ok (.cons (.bytes _) (.cons (.bytes _) hItems))
  · exact .ok (.cons (.bytes _) hItems)
  · exact .error (unencodable_like h)

theorem modifyItems_like (hs : s.Like L s') (h : i.Like L i') (op : Modify) :
    L.Encodings (modifyItems s i op) (modifyItems s' i' op) := by
  have hItems := operandItems_like h.first
  unfold modifyItems
  dsimp only
  rw [h.first.mode, hs.has_eq]
  split
  · split
    · exact .ok (.cons (.bytes _) hItems)
    · exact .error (lacking_like h.first _)
  · split
    · exact .ok (.cons (.bytes _) hItems)
    · exact .error (unencodable_like h)

theorem specialItems_like (hs : s.Like L s') (h : i.Like L i') (op : Special) :
    L.Encodings (specialItems s i op) (specialItems s' i' op) := by
  have hItems := operandItems_like h.first
  unfold specialItems
  dsimp only
  rw [h.first.mode]
  split
  · next form _ =>
    rw [hs.has_eq]
    split
    · exact .ok (.cons (.bytes _) hItems)
    · exact .error (lacking_like h.first _)
  · exact .error (unencodable_like h)

/-- Branches are long for the same targets. -/
theorem isLongBranch_eq (hs : s.Like L s') (h : o.Like L o') : isLongBranch s o = isLongBranch s' o' := by
  unfold isLongBranch
  rw [((h.value 0).relativeTo hs.counter 2).value?_eq, h.mode, h.forced, hs.has_eq]

theorem branchItems_like (hs : s.Like L s') (h : i.Like L i') (short long : UInt8) :
    List.Forall₂ (Item.Like L) (branchItems s i short long) (branchItems s' i' short long) := by
  have hDistance (adjustment : Value) := (h.first.value 0).relativeTo hs.counter adjustment
  unfold branchItems
  dsimp only
  rw [isLongBranch_eq hs h.first]
  split
  · exact .cons (.bytes _) (.cons (.value (hDistance 3) _) .nil)
  · exact .cons (.bytes _) (.cons (.value (hDistance 2) _) .nil)

theorem bitItems_like (hs : s.Like L s') (h : i.Like L i') (op : BitOp) :
    L.Encodings (bitItems s i op) (bitItems s' i' op) := by
  unfold bitItems
  dsimp only
  rw [h.first.mode]
  rcases ((h.first.value 0).checkRange 0 7).cases with ⟨bit, bit', hOk, hOk', hBit⟩ | ⟨d, d', hBad, hBad', hd⟩
  · have hOpcode := (Expr.Like.const (Value.ofNat op.opcode.toNat) hBit.span).mkOr ((hBit.mask 3).shift 4)
    have hAddress := List.Forall₂.cons (Item.Like.value hOpcode .byte) (.cons (.value (h.first.value 1) .basePage) .nil)
    rw [hOk, hOk']
    dsimp only
    split
    · exact .ok (List.rel_append hAddress (.cons (.value ((h.first.value 2).relativeTo hs.counter 3) _) .nil))
    · exact .ok hAddress
  · rw [hBad, hBad']
    exact .error hd

theorem native_like (hs : s.Like L s') (h : i.Like L i') : L.Encodings (native s i) (native s' i') := by
  unfold native
  rw [h.mnemonic]
  split
  · exact aluItems_like h _
  · exact modifyItems_like hs h _
  · exact specialItems_like hs h _
  · exact .ok (.cons (.bytes _) .nil)
  · exact .ok (branchItems_like hs h _ _)
  · exact .ok (branchItems_like hs h _ _)
  · exact .ok (branchItems_like hs h _ _)
  · exact bitItems_like hs h _
  all_goals exact .error (unencodable_like h)

end Encoding

-- --------
-- Expansions
-- --------

section Expansion

variable {s s' : Setting Feature} {i i' : Instr} {o o' : Operand Mode}

theorem part_like (m : Mnemonic) {first first' : Operand Mode} (h : first.Like L first') {p p' : Span}
    (hp : L.spans p p') : (part m first p).Like L (part m first' p') :=
  .native ⟨rfl, h, .bare _ hp⟩

theorem quad_like (h : i.Like L i') (single : Mnemonic) : (quad i single).Like L (quad i' single) :=
  ⟨rfl, rfl, .cons (.bytes _) (.cons (.native ⟨rfl, h.first, h.second⟩) .nil)⟩

theorem quadBytes_like {value value' : Expr} (h : value.Like L value') :
    List.Forall₂ (Expr.Like L) (quadBytes value) (quadBytes value') := by
  have hByte (amount : Value) := (h.shift amount).mask 8
  exact .cons (hByte _) (.cons (hByte _) (.cons (hByte _) (.cons (hByte _) .nil)))

/-- The registers behind A are loaded or copied in the same way. -/
theorem loads_like (h : o.Like L o') {low low' : Expr} (hLow : low.Like L low') {others others' : List Expr}
    (hOthers : List.Forall₂ (Expr.Like L) others others') (loads : List (Special × Implied)) :
    List.Forall₂ (Part.Like L)
      ((others.zip loads).map fun (byte, load, copy) =>
        if byte.isConstant && byte.value? == low.value? then part (.implied copy) (.bare .none o.span) o.span
        else part (.special load) (.withValue .immediate byte o.span) o.span)
      ((others'.zip loads).map fun (byte, load, copy) =>
        if byte.isConstant && byte.value? == low'.value? then part (.implied copy) (.bare .none o'.span) o'.span
        else part (.special load) (.withValue .immediate byte o'.span) o'.span) := by
  induction hOthers generalizing loads with
  | nil => exact .nil
  | cons hByte _ ih =>
    cases loads with
    | nil => exact .nil
    | cons load loads =>
      refine .cons ?_ (ih loads)
      dsimp only
      rw [hByte.isConstant_eq, hByte.value?_eq, hLow.value?_eq]
      split
      · exact part_like _ (.bare _ h.span) h.span
      · exact part_like _ (.withValue _ hByte h.span) h.span

theorem loadQuad_like (h : o.Like L o') : (loadQuad o).Like L (loadQuad o') := by
  refine ⟨rfl, rfl, .cons (.check (h.value 0) _ _) ?_⟩
  have hBytes := quadBytes_like (h.value 0)
  generalize quadBytes (o.value 0) = bytes at hBytes
  generalize quadBytes (o'.value 0) = bytes' at hBytes
  cases hBytes with
  | nil => exact .nil
  | cons hLow hOthers =>
    exact .cons (part_like _ (.withValue _ hLow h.span) h.span) (loads_like h hLow hOthers quadLoads)

theorem longJump_like (hs : s.Like L s') (h : o.Like L o') (c : Condition) :
    (longJump s o c).Like L (longJump s' o' c) := by
  unfold longJump
  dsimp only
  rw [hs.has_eq]
  split
  · exact ⟨rfl, rfl, .cons (part_like _ (.withValue _ (h.value 0) h.span) h.span) .nil⟩
  · exact ⟨rfl, rfl, .cons (part_like _ (.withValue _ hs.label h.span) h.span)
      (.cons (part_like _ (.withValue _ (h.value 0) h.span) h.span) (.cons .label .nil))⟩

theorem expansion?_like (hs : s.Like L s') (h : i.Like L i') :
    Option.Rel (Expansion.Like L) (expansion? s i) (expansion? s' i') := by
  unfold expansion?
  rw [h.mnemonic, h.first.mode]
  split
  · split
    · exact .some (loadQuad_like h.first)
    · exact .some (quad_like h _)
  · exact .some (quad_like h _)
  · exact .some (quad_like h _)
  · exact .some (quad_like h _)
  · exact .some (quad_like h _)
  · exact .some (longJump_like hs h.first _)
  · exact .none

end Expansion

-- --------
-- The family
-- --------

/-- **The 65xx family** respects every likeness. -/
theorem family_respects (L : Likeness) : family.Respects L where
  mnemonic h := by
    show Mnemonic.ofName? _ = Mnemonic.ofName? _
    unfold Mnemonic.ofName?
    rw [h]
  cpu h := by
    show cpu? _ = cpu? _
    unfold cpu?
    rw [h]
  reserved h := by
    show registers.any _ = registers.any _
    unfold Text.sameWord
    rw [h]
  grammar machine request hScope := grammar_like machine request hScope
  native hs h := native_like hs h
  expansion hs h := expansion?_like hs h

end CrossAsm.Mos65
