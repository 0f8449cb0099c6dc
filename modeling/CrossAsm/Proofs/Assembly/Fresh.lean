import CrossAsm.Proofs.Assembly.Instruction
import CrossAsm.Proofs.Assembly.Line
import CrossAsm.Proofs.Token.Position

/-!
# CrossAsm — made-up labels in a run

What a statement defines is named in the source or made up by the encoder. Names of the source are written with
letters, digits and underscores, so no label of synthesized code has a definition before it is bound.

* `keepsAt_mints` — a statement keeps the next label free, also if it fails.
* `Family.fresh_of_mem_states`, `Family.fresh_of_pending?` — so it is free in every state of a run.
-/

namespace CrossAsm

/-- No name of a source is that of a made-up label. -/
theorem Token.plain_of_scan {source : String} {tokens : List Token} (hScan : Token.scan source = .ok tokens) :
    ∀ t ∈ tokens, ∀ name, t.lexeme = .identifier name → SymbolTable.Plain name := by
  intro t ht name hName
  obtain ⟨front, word, rest, -, -, hWord⟩ := (Token.spread_scan hScan).before ht
  rw [hName] at hWord
  refine SymbolTable.plain_of_head? fun hHead => ?_
  rw [(hWord.name name rfl).1] at hHead
  have hChar := hWord.first name rfl '<' hHead
  revert hChar
  decide

namespace Assembly

open CrossAsm.Action (KeepsAt)

variable {Mnemonic Mode Feature : Type}

/-- From `a` to `b`, labels were made up in their order, and no name of one that is still to come was
defined. -/
def Mints (a b : Assembly Feature) : Prop := a.symbols.Grows b.symbols

instance : Std.Refl (@Mints Feature) where
  refl s := .refl s.symbols

instance : Trans (@Mints Feature) Mints Mints where
  trans := SymbolTable.Grows.trans

theorem admitsWriting_mints [DecidableEq Mode] [Flag Mode] (job : Job Mnemonic Mode Feature) :
    AdmitsWriting SymbolTable.Plain job (@Mints Feature) where
  read {s _} _ := .refl s.symbols
  define hName h := .define (.of_plain hName _) h
  operands {s _ _ _ _ _ _ _} _ := .refl s.symbols
  encode h := h.labels

section

variable [DecidableEq Mode] [Flag Mode] [Flag Feature] {job : Job Mnemonic Mode Feature}
  {s : Assembly Feature}

theorem keepsAt_mints (hNames : s.cursor.NamesIn SymbolTable.Plain) :
    KeepsAt Mints (wholeStatement job) s := by
  refine (admitsWriting_mints job).wholeStatement hNames ?_ ?_ ?_
  · intro _ a origin span
    obtain ⟨earlier, current, hOpened⟩ := opened_eq a origin span
    rw [hOpened]
    exact .refl a.symbols
  · exact fun _ a _ => .refl a.symbols
  · exact fun _ a => .refl a.symbols

theorem mints_step (hNames : s.cursor.NamesIn SymbolTable.Plain) : Mints s (step job s) := by
  cases hAt : s.cursor.isAt .newline with
  | true =>
    rw [step_of_newline hAt]
    exact .refl s.symbols
  | false =>
    rw [step_of_statement hAt]
    have hStatement : Mints s (Action.stateAfter (wholeStatement job s)) := keepsAt_mints hNames
    cases hRun : wholeStatement job s with
    | ok u s' =>
      rw [hRun] at hStatement
      rw [statement_of_ok hRun]
      exact hStatement
    | error d s' =>
      rw [hRun] at hStatement
      obtain ⟨earlier, current, hBack⟩ := statement_of_error hRun
      rw [hBack]
      exact hStatement

theorem mints_of_mem_visits (hF : job.family.Shipped) {n : Nat} {start : Assembly Feature}
    (hScanned : start.cursor.Scanned) (hNames : start.cursor.NamesIn SymbolTable.Plain)
    (hs : s ∈ visits job n start) : Mints start s := by
  refine (visits_induction (motive := fun t => (t.cursor.Scanned ∧ t.cursor.NamesIn SymbolTable.Plain) ∧ Mints start t)
    ?_ ⟨⟨hScanned, hNames⟩, Std.Refl.refl start⟩ hs).2
  rintro t ⟨⟨hScanned, hNames⟩, hMints⟩ hMore
  have hSuffix := (suffix_step hF hScanned hMore).trans (List.tail_suffix _)
  exact ⟨⟨hScanned.of_suffix hSuffix, hNames.of_suffix hSuffix⟩, hMints.trans (mints_step hNames)⟩

end

end Assembly

namespace Family

variable {Mnemonic Mode Feature : Type} [DecidableEq Mode] [Flag Mode] [Flag Feature]
  {F : Family Mnemonic Mode Feature} {machine : Machine Feature} {policy : Policy} {source : String}
  {s : Assembly Feature} (hF : F.Shipped) (hs : s ∈ F.states machine policy source)

include hF hs

/-- What is left to be read is the rest of the source. -/
theorem cursor_of_mem_states :
    ∃ tokens, Token.scan source = .ok tokens ∧ s.cursor.rest <:+ tokens ∧
      s.cursor.stop = source.utf8ByteSize := by
  obtain ⟨tokens, hScan, hVisit⟩ := visits_of_mem_states hs
  exact ⟨tokens, hScan, Assembly.suffix_of_mem_visits hF (Token.scan_lexeme_ne hScan) hVisit,
    Assembly.stop_of_mem_visits hF hVisit⟩

/-- In every state of a run, no name of a label that is still to be made up is defined. -/
theorem fresh_of_mem_states : s.symbols.Fresh := by
  obtain ⟨tokens, hScan, hVisit⟩ := visits_of_mem_states hs
  have hMints := Assembly.mints_of_mem_visits hF (Token.scan_lexeme_ne hScan) (Token.plain_of_scan hScan) hVisit
  refine hMints.fresh ?_
  intro x hx
  cases hx

/-- The label of a statement leaves the next made-up label free, too. -/
theorem fresh_of_pending? {w : Pending Mnemonic Feature} (hw : Assembly.pending? F s = some w) :
    w.state.symbols.Fresh := by
  obtain ⟨tokens, hScan, hSuffix, -⟩ := cursor_of_mem_states hF hs
  have hNames : s.cursor.NamesIn SymbolTable.Plain :=
    fun t ht => Token.plain_of_scan hScan t (hSuffix.subset ht)
  have hFresh := fresh_of_mem_states hF hs
  obtain ⟨-, -, -, -, -, -, hState⟩ := Assembly.pending?_eq_some hw
  rw [hState]
  cases hLabel : s.cursor.label? with
  | none =>
    rw [Assembly.behindLabel_of_none hLabel]
    exact hFresh
  | some found =>
    obtain ⟨name, span⟩ := found
    rw [Assembly.behindLabel_of_some hLabel]
    have hDefine : Assembly.Mints _ (Action.stateAfter (Assembly.defineLabel name span _)) :=
      (Assembly.admitsWriting_mints (F.job policy source)).keeps_defineLabel (hNames.label? hLabel) span
        { s with cursor := s.cursor.behindLabel }
    exact hDefine.fresh hFresh

end Family

end CrossAsm
