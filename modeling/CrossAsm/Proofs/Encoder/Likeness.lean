import CrossAsm.Proofs.Action.Likeness
import CrossAsm.Proofs.Operand.Likeness
import CrossAsm.Proofs.Program.Likeness

/-!
# CrossAsm — encoding instructions that are alike

Encoders that are alike have the same bytes, and patches with corresponding expressions over them. An instruction
from the source keeps them alike, whether it is native, expanded or refused.

* `Encoder.Like` — encoders with corresponding outputs.
* `Encoder.dispatch_like` — an instruction of the source.
-/

namespace CrossAsm

open CrossAsm.Action (EndAlike)

variable {L : Likeness}

/-- The same machine and policy, at corresponding places. -/
structure Site.Like {Feature : Type} (L : Likeness) (site site' : Site Feature) : Prop where
  machine : site.machine = site'.machine
  policy  : site.policy = site'.policy
  span    : L.spans site.span site'.span

namespace Encoder

/-- Encoders with corresponding outputs. -/
structure Like (L : Likeness) (e e' : Encoder) : Prop where
  output       : e.output.Like L e'.output
  symbols      : e.symbols.Like L e'.symbols
  reported     : L.Reports e.reported e'.reported
  instructions : e.instructions = e'.instructions
  synthesized  : e.synthesized = e'.synthesized

/-- Actions of the encoder that are alike. -/
abbrev ActsAlike {α α' : Type} (L : Likeness) (A : α → α' → Prop) (x : Encode α) (y : Encode α') : Prop :=
  Action.Like L (Like L) A x y

-- --------
-- Writing
-- --------

theorem require_like {α α' : Type} {A : α → α' → Prop} {r : Except Diagnostic α} {r' : Except Diagnostic α'}
    (h : L.Results A r r') : ActsAlike L A (require r) (require r') := by
  cases h with
  | ok h => exact .pure h
  | error h => exact .throw h

theorem emit_like (bytes : List UInt8) : ActsAlike L Eq (emit bytes) (emit bytes) := by
  refine .modify fun s t h => ?_
  exact ⟨h.output.emit bytes, h.symbols, h.reported, h.instructions, h.synthesized⟩

theorem emitExpr_like {e e' : Expr} (he : e.Like L e') (w : Width) :
    ActsAlike L Eq (modify fun s : Encoder => { s with output := s.output.emitExpr e w })
      (modify fun s : Encoder => { s with output := s.output.emitExpr e' w }) := by
  refine .modify fun s t h => ?_
  exact ⟨h.output.emitExpr he w, h.symbols, h.reported, h.instructions, h.synthesized⟩

theorem emitValue_like {e e' : Expr} (he : e.Like L e') (w : Width) :
    ActsAlike L Eq (emitValue e w) (emitValue e' w) :=
  (require_like (he.checkRange w.low w.high)).bind fun _ _ hChecked => emitExpr_like hChecked w

theorem emitTruncated_like {e e' : Expr} (he : e.Like L e') (w : Width) :
    ActsAlike L Eq (emitTruncated e w) (emitTruncated e' w) := emitExpr_like (he.mask w.bits) w

theorem emitItem_like {item item' : Item} (h : item.Like L item') :
    ActsAlike L Eq (emitItem item) (emitItem item') := by
  cases h with
  | bytes bytes => exact emit_like bytes
  | value h w => exact emitValue_like h w

theorem freshLabel_like (hDefines : L.defines) : ActsAlike L L.names freshLabel freshLabel := by
  refine Action.Like.get.bind fun s t h => ?_
  have hMinted : Like L { s with symbols := s.symbols.mint } { t with symbols := t.symbols.mint } :=
    ⟨h.output, h.symbols.mint, h.reported, h.instructions, h.synthesized⟩
  exact (Action.Like.set hMinted).bind fun _ _ _ => .pure (h.symbols.nextLabel hDefines)

theorem bindLabel_like (hDefines : L.defines) {label label' : String} (hLabel : L.names label label') {p p' : Span}
    (hp : L.spans p p') : ActsAlike L Eq (bindLabel label p) (bindLabel label' p') := by
  refine Action.Like.get.bind fun s t h => ?_
  refine (require_like (h.symbols.define hDefines hLabel (h.output.positionExpr hp) hp)).bind
    fun symbols symbols' hSymbols => ?_
  exact .set ⟨h.output, hSymbols, h.reported, h.instructions, h.synthesized⟩

theorem report_like (policy : Policy) {d d' : Diagnostic} (hd : d.Like L d') :
    ActsAlike L Eq (report policy d) (report policy d') := by
  refine (require_like (policy.judge_like hd)).bind fun new new' hNew => .modify fun s t h => ?_
  exact ⟨h.output, h.symbols, List.rel_append h.reported hNew, h.instructions, h.synthesized⟩

theorem count_like : ActsAlike L Eq count count := by
  refine .modify fun s t h => ?_
  exact ⟨h.output, h.symbols, h.reported, congrArg (· + 1) h.instructions, h.synthesized⟩

-- --------
-- Instructions
-- --------

section Instructions

variable {Mnemonic Mode Feature : Type} {F : Family Mnemonic Mode Feature} {site site' : Site Feature}
  {i i' : Instruction Mnemonic Mode}

theorem setting_like (hDefines : L.defines) (hSite : site.Like L site') {s s' : Encoder} (h : s.Like L s') :
    (setting site s).Like L (setting site' s') :=
  ⟨congrArg Machine.features hSite.machine, h.output.positionExpr hSite.span,
    .symbol (h.symbols.nextLabel hDefines) hSite.span⟩

theorem requireSynthesis_like (hSite : site.Like L site') (m : Mnemonic) :
    ActsAlike L Eq (requireSynthesis F site m) (requireSynthesis F site' m) := by
  unfold requireSynthesis
  rw [hSite.machine]
  split
  · refine .modify fun s t h => ?_
    exact ⟨h.output, h.symbols, h.reported, h.instructions, rfl⟩
  · exact .throw (.of_place hSite.span rfl rfl rfl fun _ => rfl)

theorem checkFeatures_like [Flag Feature] (hSite : site.Like L site') (m : Mnemonic) :
    L.Results Eq (checkFeatures F site m) (checkFeatures F site' m) := by
  unfold checkFeatures
  rw [hSite.machine]
  dsimp only
  split
  · exact .ok rfl
  · exact .error (.of_place hSite.span rfl rfl rfl fun _ => rfl)

theorem checkOperand_like [Flag Mode] [Flag Feature] (hSite : site.Like L site') (m : Mnemonic) (index : Nat)
    (allowed : FlagSet Mode) {o o' : Operand Mode} (h : o.Like L o') :
    L.Results Eq (checkOperand F site m index allowed o) (checkOperand F site' m index allowed o') := by
  unfold checkOperand
  rw [hSite.machine, h.mode]
  dsimp only
  split
  · exact .error (.of_place h.span rfl rfl rfl fun _ => rfl)
  · split
    · exact .ok rfl
    · exact .error (.of_place h.span rfl rfl rfl fun _ => rfl)

theorem checkOperands_like [Flag Mode] [Flag Feature] (hSite : site.Like L site') (h : i.Like L i') :
    L.Results Eq (checkOperands F site i) (checkOperands F site' i') := by
  unfold checkOperands
  rw [h.mnemonic]
  dsimp only
  rcases (checkOperand_like hSite i'.mnemonic 0 (F.entry i'.mnemonic).first h.first).cases with
    ⟨⟨⟩, ⟨⟩, hOk, hOk', -⟩ | ⟨d, d', hBad, hBad', hd⟩
  · rw [hOk, hOk']
    cases (F.entry i'.mnemonic).second with
    | none => exact .ok rfl
    | some allowed => exact checkOperand_like hSite _ 1 allowed h.second
  · rw [hBad, hBad']
    exact .error hd

variable (hF : F.Respects L) (hDefines : L.defines) (hSite : site.Like L site')

include hF hDefines hSite

theorem writeNative_like (h : i.Like L i') : ActsAlike L Eq (writeNative F site i) (writeNative F site' i') := by
  refine Action.Like.get.bind fun s t hs => ?_
  refine (require_like (hF.native (setting_like hDefines hSite hs) h)).bind fun items items' hItems => ?_
  exact .forM (fun _ _ hItem => emitItem_like hItem) hItems

variable [Flag Mode] [Flag Feature]

theorem encodeNative_like (h : i.Like L i') : ActsAlike L Eq (encodeNative F site i) (encodeNative F site' i') := by
  unfold encodeNative
  rw [h.mnemonic]
  exact (require_like (checkFeatures_like hSite _)).bind fun _ _ _ =>
    (require_like (checkOperands_like hSite h)).bind fun _ _ _ =>
      count_like.bind fun _ _ _ => writeNative_like hF hDefines hSite h

theorem encodePart_like {label label' : String} (hLabel : L.names label label') {p p' : Part Mnemonic Mode}
    (h : p.Like L p') : ActsAlike L Eq (encodePart F site label p) (encodePart F site' label' p') := by
  cases h with
  | bytes bytes => exact emit_like bytes
  | check h low high => exact (require_like (h.checkRange low high)).bind fun _ _ _ => .pure rfl
  | native h => exact encodeNative_like hF hDefines hSite h
  | label => exact bindLabel_like hDefines hLabel hSite.span

theorem writeExpansion_like (m : Mnemonic) {x x' : Expansion Mnemonic Mode} (h : x.Like L x') :
    ActsAlike L Eq (writeExpansion F site m x) (writeExpansion F site' m x') := by
  have hParts (label label' : String) (hLabel : L.names label label') :
      ActsAlike L Eq (x.parts.forM (encodePart F site label)) (x'.parts.forM (encodePart F site' label')) :=
    .forM (fun _ _ hPart => encodePart_like hF hDefines hSite hLabel hPart) h.parts
  -- Without a label, the parts get a name that no source can have.
  have hNone : L.names "" "" := L.self hDefines (by simp)
  unfold writeExpansion
  dsimp only
  rw [h.synthesized, h.labelled]
  have hRest : ActsAlike L Eq
      (if x'.labelled then freshLabel >>= fun label => x.parts.forM (encodePart F site label)
        else pure "" >>= fun label => x.parts.forM (encodePart F site label))
      (if x'.labelled then freshLabel >>= fun label => x'.parts.forM (encodePart F site' label)
        else pure "" >>= fun label => x'.parts.forM (encodePart F site' label)) := by
    split
    · exact (freshLabel_like hDefines).bind hParts
    · exact (Action.Like.pure hNone).bind hParts
  by_cases hSynthesized : x'.synthesized = true
  · rw [if_pos hSynthesized, if_pos hSynthesized]
    exact (requireSynthesis_like hSite m).bind fun _ _ _ => hRest
  · rw [if_neg hSynthesized, if_neg hSynthesized]
    exact hRest

theorem finish_like (h : i.Like L i') : ActsAlike L Eq (finish F site i) (finish F site' i') := by
  refine (require_like (checkOperands_like hSite h)).bind fun _ _ _ => count_like.bind fun _ _ _ =>
    Action.Like.get.bind fun s t hs => ?_
  rcases rel_cases (hF.expansion (setting_like hDefines hSite hs) h) with ⟨hx, hx'⟩ | ⟨x, x', hx, hx', hLike⟩
  · rw [hx, hx']
    exact writeNative_like hF hDefines hSite h
  · rw [hx, hx', h.mnemonic]
    exact writeExpansion_like hF hDefines hSite _ hLike

/-- **An instruction of the source** keeps encoders alike. -/
theorem dispatch_like [DecidableEq Mode] (m : Mnemonic) (implied : Option Nat) {c c' : Cursor} (hc : c.Like L c') :
    ActsAlike L (Cursor.Like L) (dispatch F site m implied c) (dispatch F site' m implied c') := by
  refine (require_like (checkFeatures_like hSite m)).bind fun _ _ _ => Action.Like.get.bind fun s t hs => ?_
  have hScope : Scope.Like L ⟨s.symbols, s.output.positionExpr site.span, F.isReserved⟩
      ⟨t.symbols, t.output.positionExpr site'.span, F.isReserved⟩ :=
    ⟨hs.symbols.lookup_eq, hs.output.positionExpr hSite.span, fun hName => hF.reserved (L.lower_eq hName)⟩
  have hOperands := resolveOperands_like hF site.machine hScope m implied hc
  rw [hSite.machine] at hOperands
  dsimp only
  rw [hSite.machine]
  refine (require_like hOperands).bind fun found found' hFound => ?_
  obtain ⟨first, second, d⟩ := found
  obtain ⟨first', second', d'⟩ := found'
  obtain ⟨hFirst, hSecond, hd⟩ := hFound
  have hInstruction : Instruction.Like L ⟨m, first, second⟩ ⟨m, first', second'⟩ := ⟨rfl, hFirst, hSecond⟩
  exact (finish_like hF hDefines hSite hInstruction).bind fun _ _ _ => .pure hd

end Instructions

end Encoder

end CrossAsm
