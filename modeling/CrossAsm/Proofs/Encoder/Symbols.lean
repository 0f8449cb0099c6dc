import CrossAsm.Proofs.Action.Ends
import CrossAsm.Proofs.Encoder.Likeness
import CrossAsm.Proofs.Encoder.Output
import CrossAsm.Proofs.Operand.Symbols
import CrossAsm.Proofs.Symbol.Names

/-!
# CrossAsm — the symbols that the encoder brings in

An instruction is written from its operands, so its output mentions names of the source. If there is a made-up label
in it, then the label is bound behind everything that mentions it: by then it is new, so the binding gets through.
What fails in front of the label does not get to it, and its output is taken back later.

* `ActsIn` — what an action mentions that leaves the symbols alone, with one lemma for each of them.
* `ends_dispatch` — an instruction of the source leaves every name in the output known, and never redefines one.
-/

namespace CrossAsm

-- --------
-- Sections
-- --------

namespace Section

variable {N N' : String → Prop} {s : Section}

/-- The values that are still to be filled in mention names in `N` only. -/
def RefersTo (N : String → Prop) (s : Section) : Prop := ∀ q ∈ s.patches, q.expr.SymbolsIn N

namespace RefersTo

theorem mono (h : s.RefersTo N) (hN : ∀ name, N name → N' name) : s.RefersTo N' :=
  fun q hq => (h q hq).mono hN

theorem emitExpr {e : Expr} (h : s.RefersTo N) (he : e.SymbolsIn N) (w : Width) : (s.emitExpr e w).RefersTo N := by
  unfold Section.emitExpr
  split
  · exact h
  · exact List.forall_mem_append.mpr ⟨h, List.forall_mem_singleton.mpr he⟩

end RefersTo

end Section

namespace Encoder

open CrossAsm.Action (EndsAt)

variable {α β : Type} {N : String → Prop} {t : SymbolTable} {e : Encoder}

-- --------
-- Actions that leave the symbols alone
-- --------

/-- The output mentions names in `N` only, and the symbols are those of `t`. -/
structure Within (N : String → Prop) (t : SymbolTable) (e : Encoder) : Prop where
  output  : e.output.RefersTo N
  symbols : e.symbols = t

/-- The action puts out names in `N` only, keeps the symbols and does not fail for a redefinition. -/
def ActsIn (N : String → Prop) (t : SymbolTable) (P : α → Prop) (act : Encode α) : Prop :=
  ∀ e, e.Within N t →
    EndsAt (fun a e' => P a ∧ e'.Within N t) (fun d e' => d.redefined? = none ∧ e'.symbols = t) act e

namespace ActsIn

variable {P : α → Prop} {Q : β → Prop}

theorem pure {a : α} (h : P a) : ActsIn N t P (pure a) := fun _ he => .pure ⟨h, he⟩

theorem throw {d : Diagnostic} (h : d.redefined? = none) : ActsIn N t P (throw d) :=
  fun _ he => .throw ⟨h, he.symbols⟩

theorem bind {act : Encode α} {f : α → Encode β} (hAct : ActsIn N t P act) (hf : ∀ a, P a → ActsIn N t Q (f a)) :
    ActsIn N t Q (act >>= f) :=
  fun e he => (hAct e he).bind fun a e' ⟨ha, he'⟩ => hf a ha e' he'

theorem get_bind {f : Encoder → Encode β} (hf : ∀ e, ActsIn N t Q (f e)) : ActsIn N t Q (get >>= f) :=
  fun e he => .get_bind (hf e e he)

theorem modify {f : Encoder → Encoder} (hf : ∀ e, e.Within N t → (f e).Within N t) :
    ActsIn N t (fun _ => True) (modify f) :=
  fun e he => .modify ⟨trivial, hf e he⟩

theorem forM {f : α → Encode PUnit} {l : List α} (hf : ∀ a ∈ l, ActsIn N t (fun _ => True) (f a)) :
    ActsIn N t (fun _ => True) (l.forM f) := by
  induction l with
  | nil => exact pure trivial
  | cons a l ih =>
    exact (hf a List.mem_cons_self).bind fun _ _ => ih fun b hb => hf b (List.mem_cons_of_mem _ hb)

theorem require {r : Except Diagnostic α} (h : Delivers P r) : ActsIn N t P (require r) := by
  cases r with
  | ok a => exact pure h
  | error d => exact throw h

end ActsIn

theorem actsIn_emit (bytes : List UInt8) : ActsIn N t (fun _ => True) (emit bytes) :=
  .modify fun _ he => ⟨he.output, he.symbols⟩

theorem actsIn_emitExpr {x : Expr} (hx : x.SymbolsIn N) (w : Width) :
    ActsIn N t (fun _ => True) (modify fun e : Encoder => { e with output := e.output.emitExpr x w }) :=
  .modify fun _ he => ⟨he.output.emitExpr hx w, he.symbols⟩

theorem actsIn_emitValue {x : Expr} (hx : x.SymbolsIn N) (w : Width) :
    ActsIn N t (fun _ => True) (emitValue x w) := by
  refine (ActsIn.require (x.delivers_checkRange _ _)).bind ?_
  rintro _ rfl
  exact actsIn_emitExpr hx w

theorem actsIn_emitTruncated {x : Expr} (hx : x.SymbolsIn N) (w : Width) :
    ActsIn N t (fun _ => True) (emitTruncated x w) := actsIn_emitExpr (hx.mask _) w

theorem actsIn_emitItem {item : Item} (h : item.SymbolsIn N) : ActsIn N t (fun _ => True) (emitItem item) := by
  cases item with
  | bytes bytes => exact actsIn_emit bytes
  | value x w => exact actsIn_emitValue h w

theorem actsIn_count : ActsIn N t (fun _ => True) count := .modify fun _ he => ⟨he.output, he.symbols⟩

/-- A policy makes an error of a diagnostic, and no other one. -/
theorem actsIn_report (policy : Policy) {d : Diagnostic} (hd : d.redefined? = none) :
    ActsIn N t (fun _ => True) (report policy d) := by
  have hJudge : Delivers (fun _ => True) (policy.judge d) := by
    unfold Policy.judge
    split
    · exact hd
    · split
      · exact trivial
      · exact trivial
  exact (ActsIn.require hJudge).bind fun _ _ => .modify fun _ he => ⟨he.output, he.symbols⟩

-- --------
-- Native instructions
-- --------

section Native

variable {Mnemonic Mode Feature : Type} {F : Family Mnemonic Mode Feature} {site : Site Feature}
  {i : Instruction Mnemonic Mode}

theorem actsIn_requireSynthesis (m : Mnemonic) : ActsIn N t (fun _ => True) (requireSynthesis F site m) := by
  unfold requireSynthesis
  split
  · exact .modify fun _ he => ⟨he.output, he.symbols⟩
  · exact .throw rfl

theorem actsIn_writeNative (hF : F.Mentions) (hi : i.SymbolsIn N) :
    ActsIn N t (fun _ => True) (writeNative F site i) := by
  refine .get_bind fun e => ?_
  have hItems : EncodesIn N (F.native (setting site e) i) :=
    hF.encodesIn (Section.symbolsIn_positionExpr e.output site.span N) hi
  exact (ActsIn.require hItems).bind fun items h => .forM fun item hItem => actsIn_emitItem (h item hItem)

variable [Flag Mode] [Flag Feature]

omit [Flag Mode] in
theorem delivers_checkFeatures (F : Family Mnemonic Mode Feature) (site : Site Feature) (m : Mnemonic) :
    Delivers (fun _ => True) (checkFeatures F site m) :=
  .of_like (checkFeatures_like (L := .within fun _ => True) ⟨rfl, rfl, trivial⟩ m) fun _ _ => trivial

theorem delivers_checkOperands (F : Family Mnemonic Mode Feature) (site : Site Feature)
    (hi : i.SymbolsIn N) : Delivers (fun _ => True) (checkOperands F site i) :=
  .of_like (checkOperands_like ⟨rfl, rfl, trivial⟩ (Instruction.like_within_iff.mpr hi)) fun _ _ => trivial

theorem actsIn_encodeNative (hF : F.Mentions) (hi : i.SymbolsIn N) :
    ActsIn N t (fun _ => True) (encodeNative F site i) := by
  refine (ActsIn.require (delivers_checkFeatures F site i.mnemonic)).bind fun _ _ => ?_
  refine (ActsIn.require (delivers_checkOperands F site hi)).bind fun _ _ => ?_
  exact actsIn_count.bind fun _ _ => actsIn_writeNative hF hi

/-- A part of an expansion that is not its label. -/
theorem actsIn_encodePart (hF : F.Mentions) {part : Part Mnemonic Mode} (h : part.WritesIn N) (label : String) :
    ActsIn N t (fun _ => True) (encodePart F site label part) := by
  cases part with
  | bytes bytes => exact actsIn_emit bytes
  | check x low high => exact (ActsIn.require (x.delivers_checkRange low high)).bind fun _ _ => .pure trivial
  | native i => exact actsIn_encodeNative hF h
  | label => exact h.elim

end Native

-- --------
-- Expansions
-- --------

/-- The symbols are sound, and the output mentions names in `N` and names with a definition. -/
structure Sound (N : String → Prop) (e : Encoder) : Prop where
  symbols : e.symbols.Sound N
  output  : e.output.RefersTo (e.symbols.Known N)

/-- How a failure leaves the symbols. -/
structure Fails (N : String → Prop) (d : Diagnostic) (e : Encoder) : Prop where
  error   : d.redefined? = none
  symbols : e.symbols.Sound N

/-- The action gets through with a result that has the property and leaves the encoder sound, or it fails for
something else than a redefinition. -/
def Ends (N : String → Prop) (P : α → Prop) : Encode α → Encoder → Prop :=
  EndsAt (fun a e => P a ∧ e.Sound N) (Fails N)

theorem ActsIn.endsAt {M : String → Prop} {P : α → Prop} {act : Encode α} (hAct : ActsIn M t P act)
    (he : e.Within M t) (ht : t.Sound N) : EndsAt (fun a e' => P a ∧ e'.Within M t) (Fails N) act e := by
  refine (hAct e he).imp (fun _ _ h => h) ?_
  rintro d e' ⟨hError, rfl⟩
  exact ⟨hError, ht⟩

/-- An action that leaves the symbols alone and mentions only what is known. -/
theorem ActsIn.ends {P : α → Prop} {act : Encode α} (hAct : ActsIn (e.symbols.Known N) e.symbols P act)
    (h : e.Sound N) : Ends N P act e := by
  refine (hAct.endsAt ⟨h.output, rfl⟩ h.symbols).imp ?_ fun _ _ hFails => hFails
  rintro a e' ⟨ha, hOutput, hSymbols⟩
  rw [← hSymbols] at hOutput
  exact ⟨ha, hSymbols ▸ h.symbols, hOutput⟩

/-- **A made-up label is bound behind everything that mentions it.** It was handed out with this table, so it has no
definition yet, and from now on it has one. -/
theorem ends_bindLabel (ht : t.Sound N) (span : Span)
    (he : e.Within (fun name => t.Known N name ∨ name = t.nextLabel) t.mint) :
    Ends N (fun _ => True) (bindLabel t.nextLabel span) e := by
  have hNew : e.symbols.find? t.nextLabel = none := by
    rw [he.symbols]
    exact ht.fresh.find?_nextLabel
  obtain ⟨symbols, hDefine⟩ := SymbolTable.exists_define hNew (e.output.positionExpr span) span
  refine .of_ok (a := ()) (bindLabel_eq_ok.mpr ⟨symbols, hDefine, rfl⟩) ⟨trivial, ?_⟩
  rw [he.symbols] at hDefine
  refine ⟨ht.mint.define t.handedOut_nextLabel (Section.symbolsIn_positionExpr _ span N) hDefine, ?_⟩
  refine he.output.mono ?_
  rintro name (hName | rfl)
  · exact hName.mono (SymbolTable.prefix_of_define hDefine)
  · refine .inr ?_
    rw [SymbolTable.names_of_define hDefine]
    exact List.mem_append_right _ (List.mem_singleton_self _)

section Expansions

variable {Mnemonic Mode Feature : Type} [Flag Mode] [Flag Feature] {F : Family Mnemonic Mode Feature}
  {site : Site Feature} {x : Expansion Mnemonic Mode} {i : Instruction Mnemonic Mode}

omit [Flag Mode] [Flag Feature] in
theorem actsIn_synthesis (x : Expansion Mnemonic Mode) (m : Mnemonic) :
    ActsIn N t (fun _ => True) (if x.synthesized then requireSynthesis F site m else pure ()) := by
  split
  · exact actsIn_requireSynthesis m
  · exact .pure trivial

theorem ends_writeExpansion_of_unlabelled (hF : F.Mentions) (h : e.Sound N) (m : Mnemonic)
    (hLabelled : x.labelled = false) (hx : x.WritesIn (e.symbols.Known N)) :
    Ends N (fun _ => True) (writeExpansion F site m x) e := by
  obtain ⟨front, hFront, hParts⟩ := hx
  rw [hLabelled, if_neg Bool.false_ne_true, List.append_nil] at hParts
  rw [writeExpansion_eq, hLabelled, if_neg Bool.false_ne_true, hParts]
  have hAll (label : String) :
      ActsIn (e.symbols.Known N) e.symbols (fun _ => True) (front.forM (encodePart F site label)) :=
    .forM fun part hPart => actsIn_encodePart hF (hFront part hPart) label
  exact ((actsIn_synthesis x m).bind fun _ _ => hAll "").ends h

theorem ends_writeExpansion_of_labelled (hF : F.Mentions) (h : e.Sound N) (m : Mnemonic)
    (hLabelled : x.labelled = true)
    (hx : x.WritesIn fun name => e.symbols.Known N name ∨ name = e.symbols.nextLabel) :
    Ends N (fun _ => True) (writeExpansion F site m x) e := by
  obtain ⟨front, hFront, hParts⟩ := hx
  rw [if_pos hLabelled] at hParts
  rw [writeExpansion_eq, if_pos hLabelled, hParts]
  refine ((actsIn_synthesis x m).endsAt ⟨h.output, rfl⟩ h.symbols).bind ?_
  rintro _ e₁ ⟨-, hOutput, hSymbols⟩
  -- the label is handed out in front of the parts, so it is known to all of them by name
  have hFresh : freshLabel e₁ = .ok e.symbols.nextLabel { e₁ with symbols := e.symbols.mint } := by
    rw [← hSymbols]
    rfl
  refine EndsAt.bind (P := fun label e₂ => label = e.symbols.nextLabel ∧
    e₂.Within (fun name => e.symbols.Known N name ∨ name = e.symbols.nextLabel) e.symbols.mint)
    (.of_ok hFresh ⟨rfl, hOutput.mono fun _ => .inl, rfl⟩) ?_
  rintro _ e₂ ⟨rfl, he₂⟩
  rw [List.forM_eq_forM, List.forM_append]
  have hAll : ActsIn _ e.symbols.mint (fun _ => True) (front.forM (encodePart F site e.symbols.nextLabel)) :=
    .forM fun part hPart => actsIn_encodePart hF (hFront part hPart) _
  refine (hAll.endsAt he₂ h.symbols.mint).bind ?_
  rintro _ e₃ ⟨-, he₃⟩
  exact EndsAt.bind (ends_bindLabel h.symbols site.span he₃) fun _ _ h₄ => .pure h₄

/-- **An instruction with its operands** leaves every name in the output known. -/
theorem ends_finish (hF : F.Mentions) (h : e.Sound N) (hi : i.SymbolsIn N) :
    Ends N (fun _ => True) (finish F site i) e := by
  refine EndsAt.bind ((ActsIn.require (delivers_checkOperands F site hi)).ends h) ?_
  rintro _ e₁ ⟨-, h₁⟩
  refine EndsAt.bind (actsIn_count.ends h₁) ?_
  rintro _ e₂ ⟨-, h₂⟩
  refine .get_bind ?_
  have hKnown : i.SymbolsIn (e₂.symbols.Known N) := hi.mono fun _ => .inl
  have hCounter := Section.symbolsIn_positionExpr e₂.output site.span
  cases hExpansion : F.expansion? (setting site e₂) i with
  | none => exact (actsIn_writeNative hF hKnown).ends h₂
  | some x =>
    cases hLabelled : x.labelled with
    | false =>
      refine ends_writeExpansion_of_unlabelled hF h₂ i.mnemonic hLabelled (hF.writesIn (hCounter _) hKnown hExpansion ?_)
      intro hTrue
      rw [hLabelled] at hTrue
      cases hTrue
    | true =>
      refine ends_writeExpansion_of_labelled hF h₂ i.mnemonic hLabelled (hF.writesIn (hCounter _) ?_ hExpansion ?_)
      · exact hKnown.mono fun _ => .inl
      · exact fun _ => .symbol (.inr rfl) site.span

/-- **An instruction of the source** leaves every name in the output known, and never redefines one. -/
theorem ends_dispatch [DecidableEq Mode] (hF : F.Mentions) (h : e.Sound N) (m : Mnemonic) (implied : Option Nat)
    {c : Cursor} (hc : c.NamesIn N) : Ends N (Cursor.NamesIn N) (dispatch F site m implied c) e := by
  refine EndsAt.bind ((ActsIn.require (delivers_checkFeatures F site m)).ends h) ?_
  rintro _ e₁ ⟨-, h₁⟩
  refine .get_bind ?_
  have hOperands : Delivers _ (resolveOperands F site.machine
      ⟨e₁.symbols, e₁.output.positionExpr site.span, F.isReserved⟩ m implied c) :=
    delivers_resolveOperands hF site.machine (Section.symbolsIn_positionExpr e₁.output site.span N) m implied hc
  refine EndsAt.bind ((ActsIn.require hOperands).ends h₁) ?_
  rintro ⟨first, second, c'⟩ e₂ ⟨⟨hFirst, hSecond, hc'⟩, h₂⟩
  refine EndsAt.bind (ends_finish hF h₂ ⟨hFirst, hSecond⟩) ?_
  rintro _ e₃ ⟨-, h₃⟩
  exact .pure ⟨hc', h₃⟩

end Expansions

end Encoder

end CrossAsm
