import CrossAsm.Encoder
import CrossAsm.Proofs.Action
import CrossAsm.Proofs.Section.Layout
import CrossAsm.Proofs.Symbol.Fresh

/-!
# CrossAsm — the encoder only appends

Whatever the encoder does, and also if it fails halfway, its section afterwards continues the section
before at the same origin and is well-formed if that was, and every symbol is still defined. A label that it
binds was handed out before, and what was reported stays reported. There is one lemma for each action, up to
`keeps_dispatch` for a whole instruction of the source.
-/

namespace CrossAsm.Encoder

open CrossAsm.Action (Keeps KeepsAt)

/-- The output of `b` continues that of `a` in the same place and is as well-formed, and the symbols of
`b` come behind those of `a`. -/
structure Continues (a b : Encoder) : Prop where
  output     : a.output.Extends b.output
  origin     : b.output.origin = a.output.origin
  wellFormed : a.output.WellFormed → b.output.WellFormed
  symbols    : a.symbols.symbols <+: b.symbols.symbols

/-- Nothing happened to the output. -/
theorem Continues.of_output_eq {a b : Encoder} (h : b.output = a.output)
    (hSymbols : a.symbols.symbols <+: b.symbols.symbols) : Continues a b := by
  refine ⟨?_, ?_, ?_, hSymbols⟩
  · rw [h]
  · rw [h]
  · rw [h]
    exact id

instance : Std.Refl Continues where
  refl _ := .of_output_eq rfl List.prefix_rfl

instance : Trans Continues Continues Continues where
  trans hab hbc :=
    ⟨hab.output.trans hbc.output, hbc.origin.trans hab.origin,
      fun h => hbc.wellFormed (hab.wellFormed h), hab.symbols.trans hbc.symbols⟩

/-- So it is, all labels that were bound are made up, and nothing that was noted is forgotten. -/
structure Grows (a b : Encoder) : Prop extends Continues a b where
  labels       : a.symbols.Grows b.symbols
  instructions : a.instructions ≤ b.instructions
  reported     : a.reported <+: b.reported
  synthesized  : a.synthesized = true → b.synthesized = true

/-- Nothing happened to the output and to the symbols. -/
theorem Grows.of_eq {a b : Encoder} (h : b.output = a.output) (hSymbols : b.symbols = a.symbols)
    (hCount : a.instructions ≤ b.instructions) (hReported : a.reported <+: b.reported)
    (hFlag : a.synthesized = true → b.synthesized = true) : Grows a b := by
  refine ⟨.of_output_eq h ?_, ?_, hCount, hReported, hFlag⟩
  · exact hSymbols ▸ List.prefix_rfl
  · rw [hSymbols]
    exact .refl _

instance : Std.Refl Grows where
  refl _ := .of_eq rfl rfl (Nat.le_refl _) List.prefix_rfl id

instance : Trans Grows Grows Grows where
  trans hab hbc :=
    ⟨Trans.trans hab.toContinues hbc.toContinues, hab.labels.trans hbc.labels,
      hab.instructions.trans hbc.instructions, hab.reported.trans hbc.reported,
      fun h => hbc.synthesized (hab.synthesized h)⟩

-- --------
-- Writing
-- --------

theorem keeps_require {α : Type} (r : Except Diagnostic α) : Keeps Grows (require r) := by
  cases r with
  | ok a => exact .pure a
  | error d => exact .throw d

theorem keeps_emit (bytes : List UInt8) : Keeps Grows (emit bytes) :=
  .modify fun s => ⟨⟨.emit s.output bytes, rfl, fun h => h.emit bytes, List.prefix_rfl⟩, .refl _,
    Nat.le_refl _, List.prefix_rfl, id⟩

theorem origin_emitExpr (s : Section) (e : Expr) (w : Width) :
    (s.emitExpr e w).origin = s.origin := by
  unfold Section.emitExpr
  split <;> rfl

theorem keeps_emitExpr (e : Expr) (w : Width) :
    Keeps Grows (modify fun s : Encoder => { s with output := s.output.emitExpr e w } :
      Encode Unit) :=
  .modify fun s => ⟨⟨.emitExpr s.output e w, origin_emitExpr s.output e w, fun h => h.emitExpr e w,
    List.prefix_rfl⟩, .refl _, Nat.le_refl _, List.prefix_rfl, id⟩

theorem keeps_emitValue (e : Expr) (w : Width) : Keeps Grows (emitValue e w) :=
  (keeps_require _).bind fun checked => keeps_emitExpr checked w

theorem keeps_emitTruncated (e : Expr) (w : Width) : Keeps Grows (emitTruncated e w) :=
  keeps_emitExpr (e.mask w.bits) w

theorem keeps_emitItem (item : Item) : Keeps Grows (emitItem item) := by
  cases item with
  | bytes bytes => exact keeps_emit bytes
  | value e w => exact keeps_emitValue e w

theorem keeps_freshLabel : Keeps Grows freshLabel :=
  fun s => ⟨.of_output_eq rfl List.prefix_rfl, .mint s.symbols, Nat.le_refl _, List.prefix_rfl, id⟩

theorem keepsAt_bindLabel {s : Encoder} {label : String} (hLabel : s.symbols.HandedOut label) (span : Span) :
    KeepsAt Grows (bindLabel label span) s := by
  show Grows s (Action.stateAfter ((require _ >>= fun _ => _) s))
  cases hDefine : s.symbols.define label (s.output.positionExpr span) span with
  | ok symbols =>
    exact ⟨.of_output_eq rfl (SymbolTable.prefix_of_define hDefine), .define hLabel hDefine, Nat.le_refl _,
      List.prefix_rfl, id⟩
  | error d => exact .of_eq rfl rfl (Nat.le_refl _) List.prefix_rfl id

theorem keeps_report (policy : Policy) (d : Diagnostic) : Keeps Grows (report policy d) :=
  (keeps_require _).bind fun _ => .modify fun _ =>
    .of_eq rfl rfl (Nat.le_refl _) (List.prefix_append _ _) id

theorem keeps_count : Keeps Grows count :=
  .modify fun _ => .of_eq rfl rfl (Nat.le_succ _) List.prefix_rfl id

-- --------
-- Instructions
-- --------

section Instructions

variable {Mnemonic Mode Feature : Type} (F : Family Mnemonic Mode Feature) (site : Site Feature)

theorem keeps_requireSynthesis (m : Mnemonic) : Keeps Grows (requireSynthesis F site m) := by
  unfold requireSynthesis
  split
  · exact .modify fun _ => .of_eq rfl rfl (Nat.le_refl _) List.prefix_rfl fun _ => rfl
  · exact .throw _

theorem keeps_writeNative (i : Instruction Mnemonic Mode) :
    Keeps Grows (writeNative F site i) :=
  Keeps.get.bind fun _ => (keeps_require _).bind fun items => .forM keeps_emitItem items

variable [Flag Mode] [Flag Feature]

theorem keeps_encodeNative (i : Instruction Mnemonic Mode) :
    Keeps Grows (encodeNative F site i) :=
  (keeps_require _).bind fun _ => (keeps_require _).bind fun _ =>
    keeps_count.bind fun _ => keeps_writeNative F site i

theorem keepsAt_encodePart {s : Encoder} {label : String} (hLabel : s.symbols.HandedOut label)
    (part : Part Mnemonic Mode) : KeepsAt Grows (encodePart F site label part) s := by
  cases part with
  | bytes bytes => exact keeps_emit bytes s
  | check e low high => exact (keeps_require _).bind (fun _ => .pure _) s
  | native i => exact keeps_encodeNative F site i s
  | label => exact keepsAt_bindLabel hLabel site.span

/-- A label that was handed out in front of the parts of an expansion can be bound by any of them. -/
theorem keepsAt_encodeParts {s : Encoder} {label : String} (hLabel : s.symbols.HandedOut label)
    (parts : List (Part Mnemonic Mode)) : KeepsAt Grows (parts.forM (encodePart F site label)) s := by
  induction parts generalizing s with
  | nil => exact Keeps.pure _ s
  | cons part parts ih =>
    have hPart := keepsAt_encodePart F site hLabel part
    exact hPart.bind fun _ s' hRun => ih ((hPart.of_ok hRun).labels.handedOut hLabel)

/-- The two things an expansion may need come in front of its parts. -/
theorem writeExpansion_eq (m : Mnemonic) (x : Expansion Mnemonic Mode) :
    writeExpansion F site m x =
      ((if x.synthesized then requireSynthesis F site m else pure ()) >>= fun _ =>
        (if x.labelled then freshLabel else pure "") >>= fun label =>
          x.parts.forM (encodePart F site label)) := by
  unfold writeExpansion
  cases x.synthesized <;> cases x.labelled <;> rfl

theorem keeps_writeExpansion (m : Mnemonic) (x : Expansion Mnemonic Mode) :
    Keeps Grows (writeExpansion F site m x) := by
  have hSynthesis : Keeps Grows (if x.synthesized then requireSynthesis F site m else pure ()) := by
    split
    · exact keeps_requireSynthesis F site m
    · exact .pure _
  rw [writeExpansion_eq]
  refine hSynthesis.bind fun _ => ?_
  split
  · exact fun s => KeepsAt.bind (keeps_freshLabel s) fun label s' hRun => by
      cases hRun
      exact keepsAt_encodeParts F site s.symbols.handedOut_nextLabel x.parts
  · exact fun s => KeepsAt.bind (Keeps.pure "" s) fun label s' hRun => by
      obtain ⟨rfl, rfl⟩ := Action.pure_eq_ok.mp hRun
      exact keepsAt_encodeParts F site (.of_plain (SymbolTable.plain_of_head? (by decide)) _) x.parts

theorem keeps_finish (i : Instruction Mnemonic Mode) : Keeps Grows (finish F site i) := by
  refine (keeps_require _).bind fun _ => keeps_count.bind fun _ => Keeps.get.bind fun s => ?_
  split
  · exact keeps_writeExpansion F site i.mnemonic _
  · exact keeps_writeNative F site i

/-- **A whole instruction of the source only appends.** -/
theorem keeps_dispatch [DecidableEq Mode] (m : Mnemonic) (implied : Option Nat) (c : Cursor) :
    Keeps Grows (dispatch F site m implied c) := by
  refine (keeps_require _).bind fun _ => Keeps.get.bind fun s => (keeps_require _).bind ?_
  rintro ⟨first, second, c'⟩
  exact (keeps_finish F site _).bind fun _ => .pure _

end Instructions

end CrossAsm.Encoder
