import CrossAsm.Proofs.Assembly.Comparison

/-!
# CrossAsm — what a warning policy can do

A policy has a say only in what is reported. It leaves out what it ignores, and it stops a run at the first
diagnostic that it denies. What a run makes of the source up to there, it does not change.
-/

namespace CrossAsm

namespace Family

variable {Mnemonic Mode Feature : Type} [DecidableEq Mode] [Flag Mode] [Flag Feature]
  {F : Family Mnemonic Mode Feature}

/-- **A warning policy only filters or fails.** Compared with the run under no policy, a program stays the program if
nothing was reported that the policy denies, and what is reported is what the policy does not ignore. Otherwise
the run fails, and its first error is the first diagnostic that is denied. What fails under no policy fails under
any. -/
theorem policy_filters_or_fails (hF : F.Shipped) (machine : Machine Feature) (policy : Policy) (source : String) :
    (∀ p, (F.assemble machine {} source).result = .ok p →
      (∀ d ∈ (F.assemble machine {} source).reported, policy.denies d = false) →
        (F.assemble machine policy source).result = .ok p ∧
        (F.assemble machine policy source).reported =
          (F.assemble machine {} source).reported.filter fun d => !policy.ignores d) ∧
    (∀ p d, (F.assemble machine {} source).result = .ok p →
      (F.assemble machine {} source).reported.find? policy.denies = some d →
        ∃ others, (F.assemble machine policy source).result = .error (.collected (d :: others))) ∧
    ∀ f, (F.assemble machine {} source).result = .error f →
      ∃ f', (F.assemble machine policy source).result = .error f' := by
  have hSifts {p : Program} (h : (F.assemble machine {} source).result = .ok p) :=
    (Comparison.sifting policy).assemble hF ⟨.refl F machine.features, rfl, rfl⟩ (fun _ _ _ _ _ _ => rfl) h
  refine ⟨fun p h hNone => ?_, fun p d h hFirst => ?_, fun f h => ?_⟩
  · rcases hSifts h with ⟨hResult, -, hReported⟩ | ⟨d, others, -, hFirst⟩
    · exact ⟨hResult, hReported⟩
    · have hDenied := List.find?_some hFirst
      rw [hNone d (List.mem_of_find?_eq_some hFirst)] at hDenied
      cases hDenied
  · rcases hSifts h with ⟨-, hNone, -⟩ | ⟨d', others, hResult, hFirst'⟩
    · have hDenied := List.find?_some hFirst
      rw [hNone d (List.mem_of_find?_eq_some hFirst)] at hDenied
      cases hDenied
    · obtain rfl : d' = d := Option.some.inj (hFirst'.symm.trans hFirst)
      exact ⟨others, hResult⟩
  · cases hJudged : (F.assemble machine policy source).result with
    | error f' => exact ⟨f', rfl⟩
    | ok p =>
      rcases (Comparison.relaxing policy).assemble hF ⟨.refl F machine.features, rfl, rfl⟩
        (fun _ _ _ _ _ _ => rfl) hJudged with ⟨hPlain, -⟩ | ⟨d, others, -, hNever⟩
      · rw [h] at hPlain
        cases hPlain
      · exact False.elim hNever

set_option maxRecDepth 10000 in
/-- Two diagnostics are reported, of which one policy denies the second one and the other policy ignores the first
one. -/
theorem policy_filters_or_fails_data :
    ∃ p d others,
      (Z80.family.assemble { features := {.z80} } {} "ld bc,de\n.byte 300\n").result = .ok p ∧
      (Z80.family.assemble { features := {.z80} } {} "ld bc,de\n.byte 300\n").reported.length = 2 ∧
      (Z80.family.assemble { features := {.z80} } ⟨["value_too_large"], []⟩ "ld bc,de\n.byte 300\n").result =
        .error (.collected (d :: others)) ∧
      (Z80.family.assemble { features := {.z80} } ⟨[], ["synthesized_instruction"]⟩
        "ld bc,de\n.byte 300\n").result = .ok p ∧
      (Z80.family.assemble { features := {.z80} } ⟨[], ["synthesized_instruction"]⟩
        "ld bc,de\n.byte 300\n").reported = [d] := by
  have hSome : (Z80.family.assemble { features := {.z80} } {} "ld bc,de\n.byte 300\n").result.toOption.isSome =
      true := by decide +kernel
  have hReported : (Z80.family.assemble { features := {.z80} } {} "ld bc,de\n.byte 300\n").reported =
      [.synthesized "LD" 2 ⟨0, 8⟩, .valueTooLarge 300 8 ⟨15, 3⟩] := by decide +kernel
  obtain ⟨p, hp⟩ := Option.isSome_iff_exists.mp hSome
  have hPlain := Action.ok_of_toOption hp
  obtain ⟨-, hDeny, -⟩ := policy_filters_or_fails .z80 { features := {.z80} } ⟨["value_too_large"], []⟩
    "ld bc,de\n.byte 300\n"
  obtain ⟨hIgnore, -, -⟩ := policy_filters_or_fails .z80 { features := {.z80} } ⟨[], ["synthesized_instruction"]⟩
    "ld bc,de\n.byte 300\n"
  rw [hReported] at hDeny hIgnore
  obtain ⟨others, hFails⟩ := hDeny p (.valueTooLarge 300 8 ⟨15, 3⟩) hPlain (by decide +kernel)
  obtain ⟨hKept, hLeft⟩ := hIgnore p hPlain (by decide +kernel)
  refine ⟨p, _, others, hPlain, by rw [hReported]; rfl, hFails, hKept, ?_⟩
  rw [hLeft]
  decide +kernel

end Family

end CrossAsm
