import CrossAsm.Proofs.Assembly.Comparison

/-!
# CrossAsm — programs on larger CPUs

Features are what a CPU can do beyond the first of its family. Both families ask for them where an instruction or
an operand needs one, and encode it in the same way whatever else the CPU can do. There is one exception: where
branches have a 16-bit form, conditional jumps and branches out of reach take it.

* `Mos65.widens`, `Z80.widens` — more features change no encoding.
-/

namespace CrossAsm

namespace FlagSet

theorem includes_singleton {α : Type} [Flag α] [DecidableEq α] {s : FlagSet α} {a : α} :
    s.includes {a} = true ↔ a ∈ s := by
  rw [includes_iff]
  constructor
  · intro h
    exact h a (decide_eq_true rfl)
  · intro h b hb
    obtain rfl : b = a := of_decide_eq_true hb
    exact h

end FlagSet

theorem Setting.has_mono {Feature : Type} [Flag Feature] {f g : FlagSet Feature} (h : f ⊆ g)
    {counter label : Expr} {required : FlagSet Feature}
    (hHas : Setting.has ⟨f, counter, label⟩ required = true) :
    Setting.has ⟨g, counter, label⟩ required = true := by
  refine FlagSet.includes_iff.mpr fun a ha => h a ?_
  exact FlagSet.includes_iff.mp hHas a ha

-- --------
-- The 65xx family
-- --------

namespace Mos65

variable {f g : Features} (hSub : f ⊆ g) (hLong : .ce02 ∈ f ↔ .ce02 ∈ g) {counter label : Expr} {i : Instr}
  {items : List Item}

include hSub in
theorem modifyItems_mono {op : Modify} (h : modifyItems ⟨f, counter, label⟩ i op = .ok items) :
    modifyItems ⟨g, counter, label⟩ i op = .ok items := by
  unfold modifyItems at h ⊢
  dsimp only at h ⊢
  split at h
  · next opcode hOpcode =>
    split at h
    · next hHas =>
      rw [if_pos (Setting.has_mono hSub hHas)]
      exact h
    · cases h
  · exact h

include hSub in
theorem specialItems_mono {op : Special} (h : specialItems ⟨f, counter, label⟩ i op = .ok items) :
    specialItems ⟨g, counter, label⟩ i op = .ok items := by
  unfold specialItems at h ⊢
  dsimp only at h ⊢
  split at h
  · next form hForm =>
    split at h
    · next hHas =>
      rw [if_pos (Setting.has_mono hSub hHas)]
      exact h
    · cases h
  · cases h

include hLong

theorem has_ce02_congr (counter label : Expr) :
    Setting.has ⟨g, counter, label⟩ {.ce02} = Setting.has ⟨f, counter, label⟩ {.ce02} := by
  rw [Bool.eq_iff_iff]
  unfold Setting.has
  rw [FlagSet.includes_singleton, FlagSet.includes_singleton, hLong]

theorem branchItems_congr (short long : UInt8) :
    branchItems ⟨g, counter, label⟩ i short long = branchItems ⟨f, counter, label⟩ i short long := by
  unfold branchItems isLongBranch
  rw [has_ce02_congr hLong]

theorem expansion?_congr : expansion? ⟨g, counter, label⟩ i = expansion? ⟨f, counter, label⟩ i := by
  unfold expansion? longJump
  rw [has_ce02_congr hLong]

/-- **More features change no encoding**, if they do not bring the long branches. -/
theorem widens (hSub : f ⊆ g) : family.Widens f g where
  included := hSub
  expansion _ _ _ := expansion?_congr hLong
  native counter label i items h := by
    have hNative : native ⟨f, counter, label⟩ i = .ok items := h
    show native ⟨g, counter, label⟩ i = .ok items
    unfold native at hNative ⊢
    cases hMnemonic : i.mnemonic with
    | modify op =>
      rw [hMnemonic] at hNative
      exact modifyItems_mono hSub hNative
    | special op =>
      rw [hMnemonic] at hNative
      exact specialItems_mono hSub hNative
    | branch c | bra | bsr =>
      rw [hMnemonic] at hNative
      dsimp only at hNative ⊢
      rw [branchItems_congr hLong]
      exact hNative
    | _ =>
      rw [hMnemonic] at hNative
      exact hNative

end Mos65

-- --------
-- The Z80 family
-- --------

namespace Z80

variable {f g : Features} (hSub : f ⊆ g) {counter label : Expr} {i : Instr} {items : List Item}

include hSub

theorem requireNext_mono {o : Operand Mode} {items' : List Item}
    (h : requireNext ⟨f, counter, label⟩ o items = .ok items') :
    requireNext ⟨g, counter, label⟩ o items = .ok items' := by
  unfold requireNext at h ⊢
  dsimp only at h ⊢
  split at h
  · next hHas =>
    rw [if_pos (Setting.has_mono hSub hHas)]
    exact h
  · cases h

theorem pushItems_mono (h : pushItems ⟨f, counter, label⟩ i = .ok items) :
    pushItems ⟨g, counter, label⟩ i = .ok items := by
  unfold pushItems at h ⊢
  split at h
  · exact requireNext_mono hSub h
  · exact h

theorem aluItems_mono {op : Alu} (h : aluItems ⟨f, counter, label⟩ i op = .ok items) :
    aluItems ⟨g, counter, label⟩ i op = .ok items := by
  unfold aluItems at h ⊢
  generalize aluOperands i = operands at h ⊢
  split at h
  -- Only the additions to a pair need a feature.
  case h_10 | h_11 =>
    split at h
    · next hGeneral =>
      rw [if_pos hGeneral]
      exact requireNext_mono hSub h
    · cases h
  all_goals exact h

/-- **More features change no encoding.** -/
theorem widens : family.Widens f g where
  included := hSub
  expansion _ _ _ := rfl
  native counter label i items h := by
    have hNative : native ⟨f, counter, label⟩ i = .ok items := h
    show native ⟨g, counter, label⟩ i = .ok items
    unfold native at hNative ⊢
    cases hMnemonic : i.mnemonic with
    | push =>
      rw [hMnemonic] at hNative
      exact pushItems_mono hSub hNative
    | alu op =>
      rw [hMnemonic] at hNative
      exact aluItems_mono hSub hNative
    | _ =>
      rw [hMnemonic] at hNative
      exact hNative

end Z80

-- --------
-- Programs
-- --------

namespace Family

variable {Mnemonic Mode Feature : Type} [DecidableEq Mode] [Flag Mode] [Flag Feature]
  {F : Family Mnemonic Mode Feature}

/-- A program of a CPU is assembled in the same way for a larger one. -/
theorem Widens.assemble_eq {f g : FlagSet Feature} (hWidens : F.Widens f g) (hF : F.Shipped) {basePage : Value}
    {synthesis : Bool} {policy : Policy} {source : String} {p : Program}
    (h : (F.assemble ⟨f, basePage, synthesis⟩ policy source).result = .ok p) :
    F.assemble ⟨g, basePage, synthesis⟩ policy source = F.assemble ⟨f, basePage, synthesis⟩ policy source := by
  have hMachines : (Comparison.same policy).Machines F ⟨f, basePage, synthesis⟩ ⟨g, basePage, synthesis⟩ :=
    ⟨hWidens, rfl, rfl⟩
  rcases (Comparison.same policy).assemble hF hMachines (fun _ _ _ _ _ _ => rfl) h with
    ⟨hResult, hReported⟩ | ⟨d, others, -, hNever⟩
  · rw [← h] at hResult
    generalize F.assemble ⟨f, basePage, synthesis⟩ policy source = small at hResult hReported ⊢
    generalize F.assemble ⟨g, basePage, synthesis⟩ policy source = large at hResult hReported ⊢
    obtain ⟨result, reported⟩ := small
    obtain ⟨result', reported'⟩ := large
    obtain rfl : result' = result := hResult
    obtain rfl : reported = reported' := hReported
    rfl
  · exact False.elim hNever

/-- **Programs run on larger CPUs.** What can be assembled with some features is assembled in the same way, to the
same code, symbols, listing and diagnostics, with more of them. The 65xx family needs that either both or none of
the CPUs have the additions of the 65CE02. -/
theorem more_features_assemble_alike :
    (∀ f g : Mos65.Features, f ⊆ g → (.ce02 ∈ f ↔ .ce02 ∈ g) →
      ∀ basePage synthesis policy source p,
        (Mos65.family.assemble ⟨f, basePage, synthesis⟩ policy source).result = .ok p →
          Mos65.family.assemble ⟨g, basePage, synthesis⟩ policy source =
            Mos65.family.assemble ⟨f, basePage, synthesis⟩ policy source) ∧
    ∀ f g : Z80.Features, f ⊆ g →
      ∀ basePage synthesis policy source p,
        (Z80.family.assemble ⟨f, basePage, synthesis⟩ policy source).result = .ok p →
          Z80.family.assemble ⟨g, basePage, synthesis⟩ policy source =
            Z80.family.assemble ⟨f, basePage, synthesis⟩ policy source := by
  refine ⟨fun f g hSub hLong _ _ _ _ _ h => ?_, fun f g hSub _ _ _ _ _ h => ?_⟩
  · exact (Mos65.widens hLong hSub).assemble_eq .mos65 h
  · exact (Z80.widens hSub).assemble_eq .z80 h

set_option maxRecDepth 10000 in
/-- A conditional jump is put together in the same way for the 6502 and the 65C02. -/
theorem more_features_assemble_alike_jump :
    (∃ p, (Mos65.family.assemble ⟨{.base}, 0, true⟩ {} "jeq $1234\nlda $12\n").result = .ok p) ∧
    Mos65.family.assemble ⟨{.base, .cmos, .rockwell}, 0, true⟩ {} "jeq $1234\nlda $12\n" =
      Mos65.family.assemble ⟨{.base}, 0, true⟩ {} "jeq $1234\nlda $12\n" ∧
    (∃ p, (Z80.family.assemble ⟨{.z80}, 0, true⟩ {} "ld bc,de\npush hl\n").result = .ok p) ∧
    Z80.family.assemble ⟨{.z80, .z80n}, 0, true⟩ {} "ld bc,de\npush hl\n" =
      Z80.family.assemble ⟨{.z80}, 0, true⟩ {} "ld bc,de\npush hl\n" := by
  have hMos : (Mos65.family.assemble ⟨{.base}, 0, true⟩ {} "jeq $1234\nlda $12\n").result.toOption.isSome =
      true := by decide +kernel
  have hZ80 : (Z80.family.assemble ⟨{.z80}, 0, true⟩ {} "ld bc,de\npush hl\n").result.toOption.isSome =
      true := by decide +kernel
  obtain ⟨p, hp⟩ := Option.isSome_iff_exists.mp hMos
  obtain ⟨q, hq⟩ := Option.isSome_iff_exists.mp hZ80
  obtain ⟨hFirst, hSecond⟩ := more_features_assemble_alike
  refine ⟨⟨p, Action.ok_of_toOption hp⟩, ?_, ⟨q, Action.ok_of_toOption hq⟩, ?_⟩
  · exact hFirst _ _ (FlagSet.includes_iff.mp (by decide)) (by decide) _ _ _ _ p (Action.ok_of_toOption hp)
  · exact hSecond _ _ (FlagSet.includes_iff.mp (by decide)) _ _ _ _ q (Action.ok_of_toOption hq)

end Family

end CrossAsm
