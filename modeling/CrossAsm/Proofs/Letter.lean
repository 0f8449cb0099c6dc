import CrossAsm.Text.Case
import CrossAsm.Text.Radix

/-!
# CrossAsm — letters and their capitals

The case of ASCII letters is changed one character at a time, and all other characters stay as they are. So what is to
be shown of a character and its other case has to be shown of 26 letters.

* `Text.of_toUpper`, `Text.of_toLower` — all characters, from the letters.
* `Text.lower_upper` — upper case is forgotten in lower case.
* `Text.digitOf?_toUpper`, `Text.digitOf?_toLower` — digits have no case.
-/

namespace CrossAsm.Text

/-- The characters of a range, from their codes. -/
theorem of_codes {P : Char → Prop} {low count : Nat} (h : ∀ n < count, P (Char.ofNat (low + n))) {c : Char}
    (hLow : low ≤ c.toNat) (hHigh : c.toNat < low + count) : P c := by
  have hCode := h (c.toNat - low) (by omega)
  have hSum : low + (c.toNat - low) = c.toNat := by omega
  rwa [hSum, Char.ofNat_toNat] at hCode

/-- What holds of the small letters and their capitals, and of two equal characters, holds of all characters and
their upper case. -/
theorem of_toUpper {P : Char → Char → Prop} (hSelf : ∀ c, P c c)
    (hLetter : ∀ n < 26, P (Char.ofNat (97 + n)) (Char.ofNat (97 + n)).toUpper) (c : Char) : P c c.toUpper := by
  by_cases hc : 'a'.val ≤ c.val ∧ c.val ≤ 'z'.val
  · have hLow : 97 ≤ c.toNat := UInt32.le_iff_toNat_le.mp hc.1
    have hHigh : c.toNat ≤ 122 := UInt32.le_iff_toNat_le.mp hc.2
    exact of_codes (P := fun c => P c c.toUpper) hLetter hLow (by omega)
  · have hSame : c.toUpper = c := by
      unfold Char.toUpper
      exact dif_neg hc
    rw [hSame]
    exact hSelf c

/-- What holds of the capitals and their small letters, and of two equal characters, holds of all characters and
their lower case. -/
theorem of_toLower {P : Char → Char → Prop} (hSelf : ∀ c, P c c)
    (hLetter : ∀ n < 26, P (Char.ofNat (65 + n)) (Char.ofNat (65 + n)).toLower) (c : Char) : P c c.toLower := by
  by_cases hc : c.val ≥ 'A'.val ∧ c.val ≤ 'Z'.val
  · have hLow : 65 ≤ c.toNat := UInt32.le_iff_toNat_le.mp hc.1
    have hHigh : c.toNat ≤ 90 := UInt32.le_iff_toNat_le.mp hc.2
    exact of_codes (P := fun c => P c c.toLower) hLetter hLow (by omega)
  · have hSame : c.toLower = c := by
      unfold Char.toLower
      exact dif_neg hc
    rw [hSame]
    exact hSelf c

theorem toLower_toUpper (c : Char) : c.toUpper.toLower = c.toLower :=
  of_toUpper (P := fun c d => d.toLower = c.toLower) (fun _ => rfl) (by decide) c

theorem utf8Size_toUpper (c : Char) : c.toUpper.utf8Size = c.utf8Size :=
  of_toUpper (P := fun c d => d.utf8Size = c.utf8Size) (fun _ => rfl) (by decide) c

theorem toUpper_eq_newline_iff (c : Char) : c.toUpper = '\n' ↔ c = '\n' :=
  of_toUpper (P := fun c d => d = '\n' ↔ c = '\n') (fun _ => .rfl) (by decide) c

theorem toLower_eq_underscore_iff (c : Char) : c.toLower = '_' ↔ c = '_' :=
  of_toLower (P := fun c d => d = '_' ↔ c = '_') (fun _ => .rfl) (by decide) c

theorem digitOf?_toUpper (c : Char) : digitOf? c.toUpper = digitOf? c :=
  of_toUpper (P := fun c d => digitOf? d = digitOf? c) (fun _ => rfl) (by decide) c

theorem digitOf?_toLower (c : Char) : digitOf? c.toLower = digitOf? c :=
  of_toLower (P := fun c d => digitOf? d = digitOf? c) (fun _ => rfl) (by decide) c

theorem upper_ofList (cs : List Char) : upper (String.ofList cs) = String.ofList (cs.map Char.toUpper) := by
  rw [← String.toList_inj, upper, String.toList_map, String.toList_ofList, String.toList_ofList]

/-- Upper case is forgotten in lower case. -/
theorem lower_upper (s : String) : lower (upper s) = lower s := by
  rw [← String.toList_inj, lower, upper, lower, String.toList_map, String.toList_map, String.toList_map, List.map_map]
  exact List.map_congr_left fun c _ => toLower_toUpper c

end CrossAsm.Text
