import CrossAsm.Proofs.Symbol

/-!
# CrossAsm — made-up labels are new

The labels of synthesized code are numbered in the order in which they are handed out, and their names are no
identifiers. So the next one has no definition yet, as long as no name in the table is one of a label that was
not handed out (`Fresh`). Every change to the table keeps it like that (`Grows`).
-/

namespace CrossAsm.SymbolTable

-- --------
-- Names
-- --------

theorem toList_syntheticName (n : Nat) :
    (syntheticName n).toList = "<synthetic ".toList ++ Nat.toDigits 10 n ++ ['>'] := by
  unfold syntheticName
  rw [String.toList_append, String.toList_append, Nat.toString_eq_repr, Nat.toList_repr]
  rfl

theorem syntheticName_inj {m n : Nat} (h : syntheticName m = syntheticName n) : m = n := by
  have hText := congrArg String.toList h
  rw [toList_syntheticName, toList_syntheticName, List.append_assoc, List.append_assoc] at hText
  have hDigits := List.append_cancel_right (List.append_cancel_left hText)
  calc m = Nat.ofDigitChars 10 (Nat.toDigits 10 m) 0 := Nat.ofDigitChars_ten_toDigits.symm
    _ = Nat.ofDigitChars 10 (Nat.toDigits 10 n) 0 := by rw [hDigits]
    _ = n := Nat.ofDigitChars_ten_toDigits

/-- The name is none that labels are made up with. -/
def Plain (name : String) : Prop := ∀ n, name ≠ syntheticName n

/-- Names of made-up labels start with an angle bracket. -/
theorem plain_of_head? {name : String} (h : name.toList.head? ≠ some '<') : Plain name := by
  rintro n rfl
  exact h (by rw [toList_syntheticName]; rfl)

/-- If the name is that of a made-up label, the label was handed out already. -/
def HandedOut (t : SymbolTable) (name : String) : Prop := ∀ n, name = syntheticName n → n ≤ t.minted

theorem HandedOut.of_plain {name : String} (h : Plain name) (t : SymbolTable) : t.HandedOut name :=
  fun n hn => absurd hn (h n)

theorem handedOut_nextLabel (t : SymbolTable) : t.mint.HandedOut t.nextLabel := by
  intro n hn
  rw [← syntheticName_inj hn]
  exact Nat.le_refl _

-- --------
-- Tables
-- --------

/-- No name is one of a label that is still to be handed out. -/
def Fresh (t : SymbolTable) : Prop := ∀ x ∈ t.symbols, t.HandedOut x.name

/-- **The next made-up label** has no definition. -/
theorem Fresh.find?_nextLabel {t : SymbolTable} (h : t.Fresh) : t.find? t.nextLabel = none := by
  unfold find?
  rw [List.find?_eq_none]
  intro x hx hName
  have hLe := h x hx _ (beq_iff_eq.mp hName)
  omega

/-- `t'` has handed out at least as many labels as `t`, and is fresh if `t` is. -/
structure Grows (t t' : SymbolTable) : Prop where
  minted : t.minted ≤ t'.minted
  fresh  : t.Fresh → t'.Fresh

namespace Grows

variable {t t' t'' : SymbolTable}

theorem refl (t : SymbolTable) : Grows t t := ⟨Nat.le_refl _, id⟩

theorem trans (h : Grows t t') (h' : Grows t' t'') : Grows t t'' :=
  ⟨Nat.le_trans h.minted h'.minted, fun hFresh => h'.fresh (h.fresh hFresh)⟩

theorem handedOut {name : String} (h : Grows t t') (hName : t.HandedOut name) : t'.HandedOut name :=
  fun n hn => Nat.le_trans (hName n hn) h.minted

theorem mint (t : SymbolTable) : Grows t t.mint :=
  ⟨Nat.le_succ _, fun hFresh x hx n hn => Nat.le_succ_of_le (hFresh x hx n hn)⟩

theorem define {name : String} {value : Expr} {span : Span} (hName : t.HandedOut name)
    (h : t.define name value span = .ok t') : Grows t t' := by
  have hMinted : t'.minted = t.minted := by
    unfold SymbolTable.define at h
    split at h
    · cases h
    · cases h
      rfl
  refine ⟨Nat.le_of_eq hMinted.symm, fun hFresh x hx n hn => ?_⟩
  rw [(symbols_of_define h).2] at hx
  rw [hMinted]
  rcases List.mem_append.mp hx with hx | hx
  · exact hFresh x hx n hn
  · rw [List.mem_singleton.mp hx] at hn
    exact hName n hn

end Grows

end CrossAsm.SymbolTable
