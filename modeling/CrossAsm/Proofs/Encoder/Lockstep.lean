import CrossAsm.Proofs.Action.Lockstep
import CrossAsm.Proofs.Encoder.Output
import CrossAsm.Proofs.Reading.Operand

/-!
# CrossAsm — one instruction under two settings

An instruction is encoded twice: with some features and with at least these, with synthesis and without it, or
under two policies. Features are only asked for, with few exceptions, so more of them change nothing
(`Family.Widens`). Without synthesis the second encoding can fail, and then the first one has noted that it
synthesized something (`Encoder.Blocked`).

* `Encoder.lockstep_dispatch` — in all other respects the second encoding does what the first one does.
-/

namespace CrossAsm

-- --------
-- Features and base pages
-- --------

namespace Family

variable {Mnemonic Mode Feature : Type} {F : Family Mnemonic Mode Feature}

/-- Whatever the family encodes with the features `f`, it encodes in the same way with `g`. -/
structure Widens (F : Family Mnemonic Mode Feature) (f g : FlagSet Feature) : Prop where
  included  : f ⊆ g
  expansion : ∀ counter label i, F.expansion? ⟨g, counter, label⟩ i = F.expansion? ⟨f, counter, label⟩ i
  native    : ∀ counter label i items, F.native ⟨f, counter, label⟩ i = .ok items →
                F.native ⟨g, counter, label⟩ i = .ok items

theorem Widens.refl (F : Family Mnemonic Mode Feature) (f : FlagSet Feature) : F.Widens f f where
  included _ h := h
  expansion _ _ _ := rfl
  native _ _ _ _ h := h

/-- Operands depend on nothing of the machine but its base page. -/
theorem Shipped.resolve_congr [DecidableEq Mode] (hF : F.Shipped) {machine machine' : Machine Feature}
    (h : machine'.basePage = machine.basePage) (scope : Scope) (request : Request Mode) :
    F.resolve scope machine' request = F.resolve scope machine request := by
  obtain ⟨features, page, synthesis⟩ := machine
  obtain ⟨features', page', synthesis'⟩ := machine'
  obtain rfl : page' = page := h
  cases hF with
  | mos65 => rfl
  | z80 => rfl

end Family

namespace Encoder

open CrossAsm.Action (Lockstep LockstepAt)

variable {Mnemonic Mode Feature : Type} {F : Family Mnemonic Mode Feature}

theorem resolveOperands_congr [DecidableEq Mode] [Flag Mode] (hF : F.Shipped)
    {machine machine' : Machine Feature} (h : machine'.basePage = machine.basePage) (scope : Scope)
    (m : Mnemonic) (implied : Option Nat) (c : Cursor) :
    resolveOperands F machine' scope m implied c = resolveOperands F machine scope m implied c := by
  unfold resolveOperands
  simp only [hF.resolve_congr h]

-- --------
-- Two encoders
-- --------

/-- The second encoder is the first one but for its reports, and something was synthesized only if that is
allowed. -/
inductive Beside (reports : List Diagnostic → List Diagnostic → Prop) (allowed : Prop) :
    Encoder → Encoder → Prop
  | mk {e : Encoder} (reported : List Diagnostic) (hReports : reports e.reported reported)
      (hAllowed : e.synthesized = true → allowed) : Beside reports allowed e { e with reported }

/-- What the encoder has noted accounts for an error. -/
def Accounts (E : Diagnostic → List Diagnostic → Bool → Prop) (d : Diagnostic) (e : Encoder) : Prop :=
  E d e.reported e.synthesized

/-- A result that both actions require. -/
theorem lockstep_require {R : Encoder → Encoder → Prop} {E : Diagnostic → Encoder → Prop} {α : Type}
    {r r' : Except Diagnostic α} (h : ∀ a, r = .ok a → r' = .ok a) : Lockstep R E (require r) (require r') := by
  cases r with
  | ok a =>
    rw [h a rfl]
    exact .pure a
  | error d => exact .throw d _

section Writing

variable {reports : List Diagnostic → List Diagnostic → Prop} {allowed : Prop}
  {E : Diagnostic → List Diagnostic → Bool → Prop}

/-- A change that is made to both encoders and has nothing to do with what they have noted. -/
theorem lockstep_modify {f : Encoder → Encoder}
    (hSame : ∀ e reported, f { e with reported } = { f e with reported })
    (hReported : ∀ e, (f e).reported = e.reported) (hFlag : ∀ e, (f e).synthesized = e.synthesized) :
    Lockstep (Beside reports allowed) (Accounts E) (modify f : Encode Unit) (modify f) := by
  refine .modify ?_ ?_
  · rintro e _ ⟨reported, hReports, hAllowed⟩
    rw [hSame e reported]
    refine .mk reported ?_ ?_
    · rwa [hReported]
    · rwa [hFlag]
  · intro e d hAccounts
    unfold Accounts at hAccounts ⊢
    rwa [hReported, hFlag]

theorem lockstep_emit (bytes : List UInt8) :
    Lockstep (Beside reports allowed) (Accounts E) (emit bytes) (emit bytes) :=
  lockstep_modify (fun _ _ => rfl) (fun _ => rfl) fun _ => rfl

theorem lockstep_emitValue (e : Expr) (w : Width) :
    Lockstep (Beside reports allowed) (Accounts E) (emitValue e w) (emitValue e w) :=
  (lockstep_require fun _ h => h).bind fun _ => lockstep_modify (fun _ _ => rfl) (fun _ => rfl) fun _ => rfl

theorem lockstep_emitTruncated (e : Expr) (w : Width) :
    Lockstep (Beside reports allowed) (Accounts E) (emitTruncated e w) (emitTruncated e w) :=
  lockstep_modify (fun _ _ => rfl) (fun _ => rfl) fun _ => rfl

theorem lockstep_emitItem (item : Item) :
    Lockstep (Beside reports allowed) (Accounts E) (emitItem item) (emitItem item) := by
  cases item with
  | bytes bytes => exact lockstep_emit bytes
  | value e w => exact lockstep_emitValue e w

theorem lockstep_count : Lockstep (Beside reports allowed) (Accounts E) count count :=
  lockstep_modify (fun _ _ => rfl) (fun _ => rfl) fun _ => rfl

theorem lockstep_freshLabel :
    Lockstep (Beside reports allowed) (Accounts E) freshLabel freshLabel where
  run := by
    rintro e _ ⟨reported, hReports, hAllowed⟩ label e' hRun
    cases hRun
    exact .inl ⟨_, rfl, .mk reported hReports hAllowed⟩
  stays h _ hAccounts := by
    cases h
    exact hAccounts

theorem lockstep_bindLabel (label : String) (span : Span) :
    Lockstep (Beside reports allowed) (Accounts E) (bindLabel label span) (bindLabel label span) where
  run := by
    rintro e _ ⟨reported, hReports, hAllowed⟩ u e' hRun
    obtain ⟨symbols, hDefine, rfl⟩ := bindLabel_eq_ok.mp hRun
    exact .inl ⟨_, bindLabel_eq_ok.mpr ⟨symbols, hDefine, rfl⟩, .mk reported hReports hAllowed⟩
  stays h _ hAccounts := by
    obtain ⟨symbols, -, rfl⟩ := bindLabel_eq_ok.mp h
    exact hAccounts

end Writing

-- --------
-- Instructions
-- --------

section Instructions

/-- Instructions of the first site are encoded at the second one too, if they need no synthesis. -/
structure SitesAgree (F : Family Mnemonic Mode Feature) (site site' : Site Feature) : Prop where
  span     : site'.span = site.span
  features : F.Widens site.machine.features site'.machine.features
  basePage : site'.machine.basePage = site.machine.basePage

/-- Synthesis is allowed at both sites. -/
def BothAllow (site site' : Site Feature) : Prop :=
  site.machine.synthesis = true ∧ site'.machine.synthesis = true

/-- Something was synthesized, and that is allowed at the first site only. -/
def Blocked (site site' : Site Feature) (_ : Diagnostic) (_ : List Diagnostic) (synthesized : Bool) : Prop :=
  site.machine.synthesis = true ∧ site'.machine.synthesis = false ∧ synthesized = true

theorem Blocked.mono {site site' : Site Feature} {d : Diagnostic} {e e' : Encoder}
    (h : Accounts (Blocked site site') d e) (hGrows : e.Grows e') : Accounts (Blocked site site') d e' :=
  ⟨h.1, h.2.1, hGrows.synthesized h.2.2⟩

/-- The second action does at its site what the first one does at its own. -/
abbrev Repeats (reports : List Diagnostic → List Diagnostic → Prop) (site site' : Site Feature) {α : Type}
    (x y : Encode α) : Prop :=
  Lockstep (Beside reports (BothAllow site site')) (Accounts (Blocked site site')) x y

variable {reports : List Diagnostic → List Diagnostic → Prop} {site site' : Site Feature}

/-- This is where the second encoding can fail. -/
theorem lockstep_requireSynthesis (m : Mnemonic) :
    Repeats reports site site' (requireSynthesis F site m) (requireSynthesis F site' m) := by
  unfold requireSynthesis
  cases hFirst : site.machine.synthesis with
  | false => exact .throw _ _
  | true =>
    cases hSecond : site'.machine.synthesis with
    | true =>
      refine .modify ?_ ?_
      · rintro e _ ⟨reported, hReports, -⟩
        exact .mk reported hReports fun _ => ⟨hFirst, hSecond⟩
      · rintro e d ⟨-, hOff, -⟩
        rw [hSecond] at hOff
        cases hOff
    | false =>
      refine ⟨?_, ?_⟩
      · intro e e' _ u e₁ hModify
        obtain rfl := Action.modify_eq_ok.mp hModify
        exact .inr ⟨_, _, rfl, hFirst, hSecond, rfl⟩
      · intro e u e₁ hModify d _
        obtain rfl := Action.modify_eq_ok.mp hModify
        exact ⟨hFirst, hSecond, rfl⟩

variable (hSites : SitesAgree F site site')

include hSites

theorem supports_mono [Flag Feature] {required : FlagSet Feature} (h : site.machine.supports required = true) :
    site'.machine.supports required = true := by
  refine FlagSet.includes_iff.mpr fun a ha => ?_
  exact hSites.features.included a (FlagSet.includes_iff.mp h a ha)

theorem checkFeatures_mono [Flag Feature] {m : Mnemonic} (h : checkFeatures F site m = .ok ()) :
    checkFeatures F site' m = .ok () := by
  unfold checkFeatures at h ⊢
  dsimp only at h ⊢
  split at h
  · next hSupports => exact if_pos (supports_mono hSites hSupports)
  · cases h

variable [Flag Mode] [Flag Feature]

theorem checkOperand_mono {m : Mnemonic} {index : Nat} {allowed : FlagSet Mode} {o : Operand Mode}
    (h : checkOperand F site m index allowed o = .ok ()) :
    checkOperand F site' m index allowed o = .ok () := by
  unfold checkOperand at h ⊢
  split at h
  · cases h
  · next hMode =>
    dsimp only at h ⊢
    split at h
    · next hSupports => rw [if_neg hMode, if_pos (supports_mono hSites hSupports)]
    · cases h

theorem checkOperands_mono {i : Instruction Mnemonic Mode} (h : checkOperands F site i = .ok ()) :
    checkOperands F site' i = .ok () := by
  unfold checkOperands at h ⊢
  dsimp only at h ⊢
  cases hFirst : checkOperand F site i.mnemonic 0 (F.entry i.mnemonic).first i.first with
  | error d =>
    rw [hFirst] at h
    cases h
  | ok u =>
    rw [hFirst] at h
    rw [checkOperand_mono hSites hFirst]
    cases hSecond : (F.entry i.mnemonic).second with
    | none => rfl
    | some allowed =>
      rw [hSecond] at h
      exact checkOperand_mono hSites h

omit [Flag Mode] [Flag Feature] in
theorem setting_eq {e : Encoder} (reported : List Diagnostic) :
    setting site' { e with reported } =
      ⟨site'.machine.features, (setting site e).counter, (setting site e).label⟩ := by
  unfold setting
  rw [hSites.span]

omit [Flag Mode] [Flag Feature] in
theorem lockstep_writeNative (i : Instruction Mnemonic Mode) :
    Repeats reports site site' (writeNative F site i) (writeNative F site' i) where
  run := by
    rintro e _ ⟨reported, hReports, hAllowed⟩
    have hNative (items : List Item) (h : F.native (setting site e) i = .ok items) :
        F.native (setting site' { e with reported }) i = .ok items := by
      rw [setting_eq hSites]
      exact hSites.features.native _ _ i items h
    exact ((lockstep_require hNative).bind (.forM lockstep_emitItem)).run _ _ (.mk reported hReports hAllowed)
  stays h _ hBlocked := Blocked.mono hBlocked ((keeps_writeNative F site i).of_ok h)

theorem lockstep_encodeNative (i : Instruction Mnemonic Mode) :
    Repeats reports site site' (encodeNative F site i) (encodeNative F site' i) :=
  (lockstep_require fun _ h => checkFeatures_mono hSites h).bind fun _ =>
    (lockstep_require fun _ h => checkOperands_mono hSites h).bind fun _ =>
      lockstep_count.bind fun _ => lockstep_writeNative hSites i

theorem lockstep_encodePart (label : String) (part : Part Mnemonic Mode) :
    Repeats reports site site' (encodePart F site label part) (encodePart F site' label part) := by
  cases part with
  | bytes bytes => exact lockstep_emit bytes
  | check e low high => exact (lockstep_require fun _ h => h).bind fun _ => .pure _
  | native i => exact lockstep_encodeNative hSites i
  | label =>
    unfold encodePart
    rw [hSites.span]
    exact lockstep_bindLabel label site.span

theorem lockstep_writeExpansion (m : Mnemonic) (x : Expansion Mnemonic Mode) :
    Repeats reports site site' (writeExpansion F site m x) (writeExpansion F site' m x) := by
  rw [writeExpansion_eq, writeExpansion_eq]
  have hSynthesis : Repeats reports site site' (if x.synthesized then requireSynthesis F site m else pure ())
      (if x.synthesized then requireSynthesis F site' m else pure ()) := by
    split
    · exact lockstep_requireSynthesis m
    · exact .pure _
  have hLabel : Repeats reports site site' (if x.labelled then freshLabel else pure "")
      (if x.labelled then freshLabel else pure "") := by
    split
    · exact lockstep_freshLabel
    · exact .pure _
  exact hSynthesis.bind fun _ => hLabel.bind fun label => .forM (lockstep_encodePart hSites label) x.parts

theorem lockstep_finish (i : Instruction Mnemonic Mode) :
    Repeats reports site site' (finish F site i) (finish F site' i) := by
  refine (lockstep_require fun _ h => checkOperands_mono hSites h).bind fun _ => lockstep_count.bind fun _ => ?_
  refine ⟨?_, ?_⟩
  · rintro e _ ⟨reported, hReports, hAllowed⟩ u e' hRun
    obtain ⟨_, _, hGet, hRest⟩ := Action.bind_eq_ok.mp hRun
    obtain ⟨rfl, rfl⟩ := Action.get_eq_ok.mp hGet
    have hExpansion : F.expansion? (setting site' { e with reported }) i = F.expansion? (setting site e) i := by
      rw [setting_eq hSites]
      exact hSites.features.expansion _ _ i
    rw [Action.bind_of_ok (Action.get_eq_ok.mpr ⟨rfl, rfl⟩), hExpansion]
    have hBeside : Beside reports (BothAllow site site') e { e with reported } := .mk reported hReports hAllowed
    cases hKind : F.expansion? (setting site e) i with
    | some x =>
      rw [hKind] at hRest
      exact (lockstep_writeExpansion hSites i.mnemonic x).run _ _ hBeside u e' hRest
    | none =>
      rw [hKind] at hRest
      exact (lockstep_writeNative hSites i).run _ _ hBeside u e' hRest
  · intro e u e' hRun d hBlocked
    obtain ⟨_, _, hGet, hRest⟩ := Action.bind_eq_ok.mp hRun
    obtain ⟨rfl, rfl⟩ := Action.get_eq_ok.mp hGet
    cases hKind : F.expansion? (setting site e) i with
    | some x =>
      rw [hKind] at hRest
      exact Blocked.mono hBlocked ((keeps_writeExpansion F site i.mnemonic x).of_ok hRest)
    | none =>
      rw [hKind] at hRest
      exact Blocked.mono hBlocked ((keeps_writeNative F site i).of_ok hRest)

/-- **An instruction of the source** is encoded under the second setting as it is under the first one, unless it
is synthesized where that is switched off. -/
theorem lockstep_dispatch [DecidableEq Mode] (hF : F.Shipped) (m : Mnemonic) (implied : Option Nat) (c : Cursor) :
    Repeats reports site site' (dispatch F site m implied c) (dispatch F site' m implied c) where
  run := by
    rintro e _ ⟨reported, hReports, hAllowed⟩ c' e' hRun
    have hFeatures := features_of_dispatch hRun
    obtain ⟨first, second, hResolve, -⟩ := finish_of_dispatch hRun
    have hResolve' : resolveOperands F site'.machine
        ⟨e.symbols, e.output.positionExpr site'.span, F.isReserved⟩ m implied c = .ok (first, second, c') := by
      rw [resolveOperands_congr hF hSites.basePage, hSites.span]
      exact hResolve
    rw [dispatch_of_operands hFeatures hResolve] at hRun
    rw [dispatch_of_operands (s := { e with reported }) (checkFeatures_mono hSites hFeatures) hResolve']
    exact ((lockstep_finish hSites _).bind fun _ => .pure c').run _ _ (.mk reported hReports hAllowed) _ _ hRun
  stays h _ hBlocked := Blocked.mono hBlocked ((keeps_dispatch F site m implied c).of_ok h)

end Instructions

end Encoder

end CrossAsm
