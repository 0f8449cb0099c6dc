import CrossAsm.Proofs.Operand.Shape
import CrossAsm.Z80

/-!
# CrossAsm — the shape of Z80 operands

Most modes select a register or a condition by its number; an expression stands in addresses, immediates and
displacements. The numbers are those of the names in the source, so an operand that fits selects a register
that exists (`pair_of_view`, `register_of_view`, `condition_of_view`).
-/

namespace CrossAsm.Z80

open CrossAsm.Operand (fits_bare fits_withValue fits_withRegister)

/-- What the modes carry. -/
def shape : Shape Mode where
  values
    | .immediate | .indexed | .memory | .ioPort | .address | .relative => 1
    | _ => 0
  registers
    | .register => [0, 1, 2, 3, 4, 5, 7]
    | .pair | .registerIndirect => [0, 1, 2, 3]
    | .index | .indexed | .special => [0, 1]
    | .condition => [0, 1, 2, 3, 4, 5, 6, 7]
    | _ => []

-- --------
-- What the grammar makes
-- --------

section Grammar

variable (scope : Scope) (allowed : Modes)

theorem mem_of_named? {α : Type} {names : List (String × α)} {name : String} {a : α}
    (h : named? names name = some a) : ∃ key, (key, a) ∈ names := by
  obtain ⟨⟨key, a'⟩, hFind, rfl⟩ := Option.map_eq_some_iff.mp h
  exact ⟨key, List.mem_of_find?_eq_some hFind⟩

/-- A name selects a number that its mode has. -/
theorem fits_of_named? {α : Type} {names : List (String × α)} {name : String} {a : α} {mode : Mode}
    {code : α → UInt8} {span : Span} (hValues : shape.values mode = 0)
    (hNames : ∀ entry ∈ names, code entry.2 ∈ shape.registers mode) (h : named? names name = some a) :
    (Operand.withRegister mode (code a) span).Fits shape := by
  obtain ⟨key, hMem⟩ := mem_of_named? h
  exact fits_withRegister hValues (hNames _ hMem)

/-- An operand that fits and is not left out. -/
def Present (o : Operand Mode) : Prop := o.Fits shape ∧ o.mode ≠ .none

theorem present_namedOperand? {name : String} {span : Span} {o : Operand Mode}
    (h : namedOperand? allowed name span = some o) : Present o := by
  simp only [namedOperand?, Option.orElse_eq_orElse, Option.orElse_eq_or, Option.or_eq_some_iff,
    Option.filter_eq_some_iff, Option.map_eq_some_iff, Option.ite_none_right_eq_some,
    Option.some.injEq] at h
  rcases h with ⟨⟨r, hr, rfl⟩, -⟩ | ⟨-, ⟨⟨cc, hcc, rfl⟩, -⟩ | ⟨-, ⟨⟨p, hp, rfl⟩, -⟩ |
    ⟨-, ⟨⟨x, hx, rfl⟩, -⟩ | ⟨-, ⟨⟨sr, hsr, rfl⟩, -⟩ | ⟨-, ⟨-, rfl⟩ | ⟨-, ⟨-, rfl⟩ | ⟨-, ⟨r, hr, rfl⟩ |
      ⟨-, p, hp, rfl⟩⟩⟩⟩⟩⟩⟩⟩
  · exact ⟨fits_of_named? rfl (by decide) hr, nofun⟩
  · exact ⟨fits_of_named? rfl (by decide) hcc, nofun⟩
  · exact ⟨fits_of_named? rfl (by decide) hp, nofun⟩
  · exact ⟨fits_of_named? rfl (by decide) hx, nofun⟩
  · exact ⟨fits_of_named? rfl (by decide) hsr, nofun⟩
  · exact ⟨fits_bare rfl rfl, nofun⟩
  · exact ⟨fits_bare rfl rfl, nofun⟩
  · exact ⟨fits_of_named? rfl (by decide) hr, nofun⟩
  · exact ⟨fits_of_named? rfl (by decide) hp, nofun⟩

theorem present_named : (named allowed).Yields Present := by
  refine .bind fun token => ?_
  split
  · next o hNamed =>
    obtain ⟨name, -, hOperand⟩ := Option.bind_eq_some_iff.mp hNamed
    exact .atEnd (present_namedOperand? allowed hOperand)
  · exact .fail

theorem present_registerIndirect : registerIndirect.Yields Present := by
  refine .bind fun opening => .bind fun token => .bind fun closing => ?_
  dsimp only
  split
  · exact .fail
  · split
    · exact .atEnd ⟨fits_bare rfl rfl, nofun⟩
    · split
      · next p hPair => exact .atEnd ⟨fits_of_named? rfl (by decide) hPair, nofun⟩
      · exact .fail

theorem present_indexed : (indexed scope).Yields Present := by
  refine .bind fun opening => .bind fun token => ?_
  split
  · exact .fail
  · next x hIndex =>
    have hCode : x.code ∈ shape.registers .indexed := by cases x <;> decide
    refine .bind fun distance => .bind fun closing => .atEnd ⟨⟨rfl, ⟨nofun, nofun⟩, ?_⟩, nofun⟩
    intro r h
    obtain rfl := Option.some.inj h
    exact hCode

theorem present_memory : (memory scope allowed).Yields Present := by
  refine .bind fun address => ?_
  dsimp only
  split
  · refine .atEnd ?_
    split
    · exact ⟨fits_withValue rfl rfl, nofun⟩
    · exact ⟨fits_withValue rfl rfl, nofun⟩
  · exact .fail

theorem present_plain : (plain scope allowed).Yields Present := by
  refine .bind fun value => .pure ?_
  split
  · exact ⟨fits_withValue rfl rfl, nofun⟩
  · split
    · exact ⟨fits_withValue rfl rfl, nofun⟩
    · exact ⟨fits_withValue rfl rfl, nofun⟩

/-- What stands in the source where an operand does not end at once. -/
theorem present_form (c : Cursor) :
    (named allowed <|> Parser.when (c.isAt (.mark .openParen)) (parenthesized scope allowed) <|>
      plain scope allowed).Yields Present := by
  have hParenthesized : (parenthesized scope allowed).Yields Present :=
    present_registerIndirect.orElse ((present_indexed scope).when.orElse (present_memory scope allowed).when)
  exact (present_named allowed).orElse (hParenthesized.when.orElse (present_plain scope allowed))

theorem fits_grammar (machine : Machine Feature) (request : Request Mode) :
    (grammar scope machine request).Yields (Operand.Fits shape) := by
  refine .look fun c => ?_
  split
  · exact .when (.pure (fits_bare rfl rfl))
  · exact (present_form scope request.allowed c).imp fun _ h => h.1

/-- An operand is left out where nothing stands. -/
theorem mode_eq_none_iff {machine : Machine Feature} {request : Request Mode} {c c' : Cursor}
    {o : Operand Mode} (h : grammar scope machine request c = .done o c') :
    o.mode = .none ↔ c.atOperandEnd = true := by
  change (if c.atOperandEnd then _ else _ : Parser (Operand Mode)) c = _ at h
  split at h
  · next hEnd =>
    obtain ⟨-, hDone⟩ := Parser.when_eq_done.mp h
    obtain ⟨rfl, -⟩ := Parser.pure_eq_done.mp hDone
    exact ⟨fun _ => hEnd, fun _ => rfl⟩
  · next hEnd =>
    have hPresent := present_form scope request.allowed c c o c' (by rw [h]; rfl)
    exact ⟨fun hNone => absurd hNone hPresent.2, fun hTrue => absurd hTrue hEnd⟩

end Grammar

-- --------
-- What operands select
-- --------

section Views

variable {o : Operand Mode}

/-- The modes that are viewed in this way. -/
def View.modes : View → List Mode
  | .absent => [.none]
  | .register _ => [.register, .registerIndirect]
  | .pair _ => [.pair]
  | .index _ => [.index]
  | .special _ => [.special]
  | .indirect _ => [.registerIndirect]
  | .indexed .. => [.indexed]
  | .memory _ => [.memory]
  | .ioPort _ => [.ioPort]
  | .ioPortC => [.ioPortC]
  | .immediate _ => [.immediate]
  | .address _ => [.address]
  | .relative _ => [.relative]
  | .condition _ => [.condition]
  | .accumulatorFlags => [.accumulatorFlags]
  | .alternateFlags => [.alternateFlags]

theorem mode_mem_modes (o : Operand Mode) : o.mode ∈ (view o).modes := by
  unfold view
  cases o.mode with
  | registerIndirect =>
    dsimp only
    split
    · exact List.mem_cons_of_mem _ (List.mem_singleton_self _)
    · exact List.mem_singleton_self _
  | register => exact List.mem_cons_self
  | _ => exact List.mem_singleton_self _

/-- A view that only one mode has. -/
theorem mode_of_view {v : View} {mode : Mode} (h : view o = v) (hModes : v.modes = [mode]) :
    o.mode = mode := by
  have hMem := mode_mem_modes o
  rw [h, hModes] at hMem
  exact List.mem_singleton.mp hMem

theorem view_eq_absent_iff : view o = .absent ↔ o.mode = .none := by
  constructor
  · exact fun h => mode_of_view h rfl
  · intro h
    unfold view
    rw [h]

/-- A pair is one of the four. -/
theorem pair_of_view (h : o.Fits shape) {p : Pair} (hView : view o = .pair p) :
    p = .bc ∨ p = .de ∨ p = .hl ∨ p = .sp := by
  have hMode := mode_of_view hView rfl
  have hCode := h.registerCode_mem (by rw [hMode]; decide)
  rw [hMode] at hCode
  simp only [view, hMode, View.pair.injEq] at hView
  subst hView
  simpa [shape] using hCode

/-- A condition is one of the eight. -/
theorem condition_of_view (h : o.Fits shape) {cc : Condition} (hView : view o = .condition cc) :
    cc.code ∈ shape.registers .condition := by
  have hMode := mode_of_view hView rfl
  have hCode := h.registerCode_mem (by rw [hMode]; decide)
  rw [hMode] at hCode
  simp only [view, hMode, View.condition.injEq] at hView
  subst hView
  exact hCode

end Views

-- --------
-- What the encodings take
-- --------

section Encoding

variable {i : Instr} {s : Setting Feature} {span : Span}

theorem code_inverse {cc : Condition} (h : cc.code ∈ shape.registers .condition) :
    cc.inverse.code ∈ shape.registers .condition := by
  have hAll : ∀ code ∈ shape.registers .condition,
      (Condition.mk code).inverse.code ∈ shape.registers .condition := by decide +kernel
  exact hAll cc.code h

section Expansion

variable (h : i.Fits shape) (extra extra' : List Expr)

include h

end Expansion

section Native

variable (h : i.Fits shape) (extra extra' : List Expr)

include h

end Native

end Encoding

end CrossAsm.Z80
