import CrossAsm.Proofs.Assembly.Comparison

/-!
# CrossAsm — programs without synthesis

Instructions that a CPU does not have can be put together from others, which a program may rule out. Then nothing
else changes: what is assembled without synthesis is what is assembled with it and was not reported to need it.
-/

namespace CrossAsm

/-- No statement of the source switches synthesis. -/
def KeepsSynthesis (source : String) : Prop :=
  ∀ tokens, Token.scan source = .ok tokens →
    ∀ c, (⟨tokens, source.utf8ByteSize⟩ : Cursor).StartsLine c → c.behindLabel.directive? ≠ some .synthesis

/-- Where the name of the directive does not stand, nothing is switched. -/
theorem KeepsSynthesis.of_tokens {source : String}
    (h : ∀ t ∈ (Token.scan source).toOption.getD [],
      t.lexeme.name?.bind Directive.ofName? ≠ some .synthesis) : KeepsSynthesis source := by
  intro tokens hScan c hc hDirective
  rw [hScan] at h
  obtain ⟨-, name, hName, hSynthesis⟩ := Cursor.directive?_eq_some hDirective
  have hNames : (⟨tokens, source.utf8ByteSize⟩ : Cursor).NamesIn fun name =>
      Directive.ofName? name ≠ some .synthesis := by
    intro t ht name hName
    have hToken := h t ht
    rwa [hName] at hToken
  have hTail : c.behindLabel.next.rest <:+ c.behindLabel.rest := List.tail_suffix _
  have hRest := (hNames.of_suffix hc.suffix).behindLabel.of_suffix hTail
  rw [← Cursor.peek_next] at hName
  have hLexeme : c.behindLabel.next.peek.lexeme = .identifier name := by
    cases hKind : c.behindLabel.next.peek.lexeme <;> simp_all [Lexeme.name?]
  exact hRest.peek name hLexeme hSynthesis

namespace Family

variable {Mnemonic Mode Feature : Type} [DecidableEq Mode] [Flag Mode] [Flag Feature]
  {F : Family Mnemonic Mode Feature}

/-- **Switching synthesis off is conservative.** A source that does not switch it itself is assembled to a program
without synthesis exactly if it is assembled to the same program with it and nothing is reported to be
synthesized. -/
theorem synthesis_off_is_conservative (hF : F.Shipped) (machine : Machine Feature) {source : String}
    (hSource : KeepsSynthesis source) (p : Program) :
    (F.assemble { machine with synthesis := false } {} source).result = .ok p ↔
      (F.assemble { machine with synthesis := true } {} source).result = .ok p ∧
        ∀ d ∈ (F.assemble { machine with synthesis := true } {} source).reported, ¬d.IsSynthesized := by
  constructor
  · intro hOff
    have hMachines : Comparison.switchedOn.Machines F { machine with synthesis := false }
        { machine with synthesis := true } := ⟨.refl F machine.features, rfl, rfl, rfl⟩
    rcases Comparison.switchedOn.assemble hF hMachines
      (fun tokens hScan c hc hDirective => absurd hDirective (hSource tokens hScan c hc)) hOff with
      ⟨hOn, hSame, hNone⟩ | ⟨d, others, -, hNever⟩
    · rw [hSame]
      exact ⟨hOn, hNone⟩
    · exact False.elim hNever
  · rintro ⟨hOn, hNone⟩
    have hMachines : Comparison.switchedOff.Machines F { machine with synthesis := true }
        { machine with synthesis := false } := ⟨.refl F machine.features, rfl, trivial⟩
    rcases Comparison.switchedOff.assemble hF hMachines (fun _ _ _ _ _ _ => trivial) hOn with
      ⟨hOff, -⟩ | ⟨d, others, -, a, ha, hSynthesized⟩
    · exact hOff
    · exact absurd hSynthesized (hNone a ha)

set_option maxRecDepth 10000 in
/-- The 6502 has no conditional jumps, so that one of the two sources needs synthesis. -/
theorem synthesis_off_is_conservative_jump :
    KeepsSynthesis "jeq $1234\n" ∧ KeepsSynthesis "jmp $1234\n" ∧
    (∀ p, (Mos65.family.assemble ⟨{.base}, 0, false⟩ {} "jeq $1234\n").result ≠ .ok p) ∧
    ∃ p, (Mos65.family.assemble ⟨{.base}, 0, true⟩ {} "jmp $1234\n").result = .ok p ∧
      (Mos65.family.assemble ⟨{.base}, 0, false⟩ {} "jmp $1234\n").result = .ok p := by
  have hJeq : KeepsSynthesis "jeq $1234\n" := .of_tokens (by decide +kernel)
  have hJmp : KeepsSynthesis "jmp $1234\n" := .of_tokens (by decide +kernel)
  have hAdvice : (Mos65.family.assemble ⟨{.base}, 0, true⟩ {} "jeq $1234\n").reported =
      [.synthesized "JEQ" 2 ⟨0, 9⟩] := by decide +kernel
  have hNone : (Mos65.family.assemble ⟨{.base}, 0, true⟩ {} "jmp $1234\n").reported = [] := by decide +kernel
  have hSome : (Mos65.family.assemble ⟨{.base}, 0, true⟩ {} "jmp $1234\n").result.toOption.isSome = true := by
    decide +kernel
  obtain ⟨p, hp⟩ := Option.isSome_iff_exists.mp hSome
  have hOn := Action.ok_of_toOption hp
  refine ⟨hJeq, hJmp, fun q hOff => ?_, p, hOn, ?_⟩
  · have hQuiet := ((synthesis_off_is_conservative .mos65 ⟨{.base}, 0, false⟩ hJeq q).mp hOff).2
    refine hQuiet (.synthesized "JEQ" 2 ⟨0, 9⟩) ?_ rfl
    show _ ∈ (Mos65.family.assemble ⟨{.base}, 0, true⟩ {} "jeq $1234\n").reported
    rw [hAdvice]
    exact List.mem_singleton_self _
  · refine (synthesis_off_is_conservative .mos65 ⟨{.base}, 0, false⟩ hJmp p).mpr ⟨hOn, ?_⟩
    show ∀ d ∈ (Mos65.family.assemble ⟨{.base}, 0, true⟩ {} "jmp $1234\n").reported, _
    rw [hNone]
    exact fun d hd => absurd hd List.not_mem_nil

end Family

end CrossAsm
