import CrossAsm.Encoder
import CrossAsm.Proofs.Parser

/-!
# CrossAsm — resolved operands

What is known of an operand that was resolved: what the grammar matched, what narrowing made of it, and where
the second operand of an instruction was read.
-/

namespace CrossAsm

namespace Operand

variable {Mode Feature : Type} [DecidableEq Mode] {grammar : Parser (Operand Mode)}
  {pairs : List (Mode × Mode)} {machine : Machine Feature} {allowed : FlagSet Mode} {o : Operand Mode}
  {c c' : Cursor}

/-- An operand that was resolved is what the grammar matched, narrowed unless its width is forced, and of
an allowed mode. -/
theorem exists_matched_of_resolve (h : resolve grammar pairs machine allowed c = .done o c') :
    ∃ matched mid, grammar c = .done matched mid ∧
      (if matched.forced then pure matched else narrow pairs machine allowed matched) mid =
        .done o c' ∧
      o.mode ∈ allowed := by
  obtain ⟨matched, mid, hGrammar, hRest⟩ := Parser.bind_eq_done.mp h
  have hAllowed {p : Parser (Operand Mode)} (hRun : (p >>= fun o =>
      if o.mode ∈ allowed then pure o else Parser.fail) mid = .done o c') :
      p mid = .done o c' ∧ o.mode ∈ allowed := by
    obtain ⟨o', last, hDone, hLast⟩ := Parser.bind_eq_done.mp hRun
    by_cases hMode : o'.mode ∈ allowed
    · rw [if_pos hMode] at hLast
      obtain ⟨rfl, rfl⟩ := Parser.pure_eq_done.mp hLast
      exact ⟨hDone, hMode⟩
    · rw [if_neg hMode] at hLast
      exact absurd hLast Parser.fail_ne_done
  refine ⟨matched, mid, hGrammar, ?_⟩
  by_cases hForced : matched.forced = true
  · rw [if_pos hForced] at hRest ⊢
    exact hAllowed hRest
  · rw [if_neg hForced] at hRest ⊢
    exact hAllowed hRest

/-- Nothing is narrowed where no narrow mode is allowed. -/
theorem narrow_eq_pure (hPairs : ∀ pair ∈ pairs, pair.2 ∉ allowed) :
    narrow pairs machine allowed o = pure o := by
  unfold narrow
  split
  · next wide narrowMode address others hFind hValues =>
    rw [if_pos (hPairs _ (List.mem_of_find?_eq_some hFind))]
  · rfl

/-- So the operand is what the grammar matched there. -/
theorem grammar_of_resolve (hPairs : ∀ pair ∈ pairs, pair.2 ∉ allowed)
    (h : resolve grammar pairs machine allowed c = .done o c') :
    grammar c = .done o c' ∧ o.mode ∈ allowed := by
  obtain ⟨matched, mid, hGrammar, hNarrow, hMode⟩ := exists_matched_of_resolve h
  rw [narrow_eq_pure hPairs, ite_self] at hNarrow
  obtain ⟨rfl, rfl⟩ := Parser.pure_eq_done.mp hNarrow
  exact ⟨hGrammar, hMode⟩

/-- An operand that has no narrow form is not narrowed either. -/
theorem narrow_eq_pure_of_mode (hPairs : ∀ pair ∈ pairs, pair.1 ≠ o.mode) :
    narrow pairs machine allowed o = pure o := by
  unfold narrow
  split
  · next wide narrowMode address others hFind hValues =>
    have hMode : wide = o.mode := by simpa using List.find?_some hFind
    exact absurd hMode (hPairs _ (List.mem_of_find?_eq_some hFind))
  · rfl

theorem resolve_of_narrow (hNarrow : narrow pairs machine allowed o = pure o) (hGrammar : grammar c = .done o c')
    (hMode : o.mode ∈ allowed) : resolve grammar pairs machine allowed c = .done o c' := by
  unfold resolve
  rw [Parser.bind_of_done hGrammar, hNarrow, ite_self]
  show (if o.mode ∈ allowed then pure o else Parser.fail : Parser (Operand Mode)) c' = _
  rw [if_pos hMode]
  rfl

theorem resolve_of_grammar (hPairs : ∀ pair ∈ pairs, pair.2 ∉ allowed) (hGrammar : grammar c = .done o c')
    (hMode : o.mode ∈ allowed) : resolve grammar pairs machine allowed c = .done o c' :=
  resolve_of_narrow (narrow_eq_pure hPairs) hGrammar hMode

end Operand

namespace Encoder

variable {Mnemonic Mode Feature : Type} [DecidableEq Mode] [Flag Mode] {F : Family Mnemonic Mode Feature}
  {machine : Machine Feature} {scope : Scope} {m : Mnemonic} {implied : Option Nat} {c c' : Cursor}
  {first second : Operand Mode}

theorem settle_eq_ok {α : Type} {problems : List Diagnostic} {a b : α} :
    settle problems a = .ok b ↔ problems = [] ∧ a = b := by
  cases problems with
  | nil => simp [settle]
  | cons d ds => simp [settle]

/-- How the operands of an instruction were recognised without a problem: the second one is not looked for,
or may be left out and is, or stands behind a comma. -/
theorem slots_of_resolveOperands
    (h : resolveOperands F machine scope m implied c = .ok (first, second, c')) :
    ∃ mid, F.resolve scope machine ⟨(F.entry m).first, (F.entry m).immediate, implied⟩ c =
        .done first mid ∧
      ((F.entry m).second = none ∧ second = .bare F.noOperand c.peek.span ∧ mid = c' ∨
        ∃ allowed, (F.entry m).second = some allowed ∧
          (mid.eat? (.mark .comma) = none ∧ F.noOperand ∈ allowed ∧
              second = .bare F.noOperand c.peek.span ∧ mid = c' ∨
            ∃ t mid', mid.eat? (.mark .comma) = some (t, mid') ∧
              F.resolve scope machine ⟨allowed, (F.entry m).immediate, implied⟩ mid' =
                .done second c')) := by
  unfold resolveOperands at h
  dsimp only at h
  split at h
  · cases h
  · next found mid problems hFirst =>
    refine ⟨mid, ?_⟩
    split at h
    · next hNone =>
      obtain ⟨rfl, hSame⟩ := settle_eq_ok.mp h
      cases hSame
      exact ⟨hFirst, .inl ⟨hNone, rfl, rfl⟩⟩
    · next allowed hSecond =>
      split at h
      · next hComma =>
        split at h
        · next hAllowed =>
          obtain ⟨rfl, hSame⟩ := settle_eq_ok.mp h
          cases hSame
          exact ⟨hFirst, .inr ⟨allowed, hSecond, .inl ⟨hComma, hAllowed, rfl, rfl⟩⟩⟩
        · cases h
      · next t mid' hComma =>
        split at h
        · cases h
        · next other stop more hOther =>
          obtain ⟨hNone, hSame⟩ := settle_eq_ok.mp h
          obtain ⟨rfl, rfl⟩ := List.append_eq_nil_iff.mp hNone
          cases hSame
          exact ⟨hFirst, .inr ⟨allowed, hSecond, .inr ⟨t, mid', hComma, hOther⟩⟩⟩

/-- The operands of an instruction were recognised without a problem, the second one behind a comma. -/
theorem resolves_of_resolveOperands
    (h : resolveOperands F machine scope m implied c = .ok (first, second, c')) :
    ∃ mid, F.resolve scope machine ⟨(F.entry m).first, (F.entry m).immediate, implied⟩ c =
        .done first mid ∧
      (second = .bare F.noOperand c.peek.span ∧ mid = c' ∨
        ∃ allowed t mid', (F.entry m).second = some allowed ∧
          mid.eat? (.mark .comma) = some (t, mid') ∧
          F.resolve scope machine ⟨allowed, (F.entry m).immediate, implied⟩ mid' = .done second c') := by
  obtain ⟨mid, hFirst, hSlots⟩ := slots_of_resolveOperands h
  refine ⟨mid, hFirst, ?_⟩
  obtain ⟨-, hAbsent, rfl⟩ | ⟨allowed, hSecond, ⟨-, -, hAbsent, rfl⟩ | ⟨t, mid', hComma, hOther⟩⟩ := hSlots
  · exact .inl ⟨hAbsent, rfl⟩
  · exact .inl ⟨hAbsent, rfl⟩
  · exact .inr ⟨allowed, t, mid', hSecond, hComma, hOther⟩

/-- The operand of an instruction that takes one. -/
theorem resolve_of_resolveOperands (hSecond : (F.entry m).second = none)
    (h : resolveOperands F machine scope m implied c = .ok (first, second, c')) :
    F.resolve scope machine ⟨(F.entry m).first, (F.entry m).immediate, implied⟩ c =
      .done first c' := by
  obtain ⟨mid, hFirst, ⟨-, rfl⟩ | ⟨allowed, t, mid', hOther, -⟩⟩ := resolves_of_resolveOperands h
  · exact hFirst
  · rw [hSecond] at hOther
    cases hOther

theorem resolveOperands_of_resolve (hSecond : (F.entry m).second = none)
    (h : F.resolve scope machine ⟨(F.entry m).first, (F.entry m).immediate, implied⟩ c = .done first c') :
    resolveOperands F machine scope m implied c = .ok (first, .bare F.noOperand c.peek.span, c') := by
  unfold resolveOperands
  dsimp only
  rw [h, hSecond]
  rfl

end Encoder

end CrossAsm
