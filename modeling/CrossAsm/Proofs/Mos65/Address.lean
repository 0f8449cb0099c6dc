import CrossAsm.Proofs.Assembly.Instruction
import CrossAsm.Proofs.Expr.Evaluation
import CrossAsm.Proofs.Mos65.Grammar
import CrossAsm.Proofs.Operand
import CrossAsm.Proofs.Program.Link

/-!
# CrossAsm — effective addresses of the 65xx

An address reaches the output in one or two bytes. Which of them, and what stands there, is decided in
three places: the grammar makes the forms that reach only the base page page-relative, narrowing settles
the width of the others, and linking checks what was not known before.

* `Resolved` — the operand that an address ends up as.
* `HoldsAddress` — the place of its field in what the instruction writes.
* `Carries` — what the bytes of the field say about the value of the address.

`effective_address` puts them together for every instruction of a linked program.
-/

namespace CrossAsm.Mos65

open Encoder Section

-- --------
-- Settling the width
-- --------

/-- The operand that an address is resolved to. -/
inductive Resolved (machine : Machine Feature) (allowed : Modes) (form : AddressForm) (e : Expr) :
    WidthMark → Operand Mode → Prop
  | narrow {o} (hMode : o.mode = form.narrow)
      (hPage : PageRelative machine e (o.value form.addressIndex)) :
      Resolved machine allowed form e .unmarked o
  | wide {o} (hMode : form.wide? = some o.mode) (hValue : o.value form.addressIndex = e)
      (hNarrow : form.narrow ∈ allowed → ∀ v, e.value? = some v → machine.inBasePage v = false) :
      Resolved machine allowed form e .unmarked o
  | forcedNarrow {o} (hMode : o.mode = form.narrow) (hValue : o.value form.addressIndex = e.mask 8) :
      Resolved machine allowed form e .narrow o
  | forcedWide {o} (hMode : form.wide? = some o.mode) (hValue : o.value form.addressIndex = e) :
      Resolved machine allowed form e .wide o

section

variable {machine : Machine Feature} {allowed : Modes} {form : AddressForm} {mark : WidthMark} {e : Expr}
  {matched o : Operand Mode} {wide : Mode} {c c' : Cursor}

theorem addressIndex_of_wide (h : form.wide? = some wide) : form.addressIndex = 0 := by
  cases form <;> cases h <;> rfl

theorem find?_narrowing_of_wide (h : form.wide? = some wide) :
    narrowing.find? (·.1 = wide) = some (wide, form.narrow) := by
  cases form <;> cases h <;> rfl

theorem find?_narrowing_of_page (h : form.wide? = none) :
    narrowing.find? (·.1 = form.narrow) = none := by
  cases form <;> cases h <;> rfl

/-- An address of open width becomes narrow where it is known to lie in the base page, or where nothing
else is allowed. -/
theorem resolved_of_narrow (hWide : form.wide? = some matched.mode) (hValues : matched.values = [e])
    (hRun : Operand.narrow narrowing machine allowed matched c = .done o c') :
    Resolved machine allowed form e .unmarked o := by
  have hIndex := addressIndex_of_wide hWide
  have hAddress : matched.value form.addressIndex = e := by
    rw [hIndex, Operand.value, hValues]
    rfl
  unfold Operand.narrow at hRun
  rw [find?_narrowing_of_wide hWide, hValues] at hRun
  dsimp only at hRun
  by_cases hOffered : form.narrow ∈ allowed
  · rw [if_neg (not_not_intro hOffered)] at hRun
    cases hValue : e.value? with
    | some v =>
      simp only [hValue] at hRun
      by_cases hPage : machine.inBasePage v = true
      · rw [if_pos hPage] at hRun
        obtain ⟨rfl, -⟩ := Parser.pure_eq_done.mp hRun
        refine .narrow rfl ?_
        rw [hIndex]
        exact .known hValue hPage
      · rw [if_neg hPage] at hRun
        by_cases hAllowed : matched.mode ∈ allowed
        · rw [if_pos hAllowed] at hRun
          obtain ⟨rfl, -⟩ := Parser.pure_eq_done.mp hRun
          refine .wide hWide hAddress fun _ v' hv' => ?_
          obtain rfl := Option.some.inj (hValue.symm.trans hv')
          exact Bool.eq_false_iff.mpr hPage
        · rw [if_neg hAllowed] at hRun
          exact absurd hRun Parser.problem_ne_done
    | none =>
      simp only [hValue] at hRun
      by_cases hAllowed : matched.mode ∈ allowed
      · rw [if_pos hAllowed] at hRun
        obtain ⟨rfl, -⟩ := Parser.pure_eq_done.mp hRun
        refine .wide hWide hAddress fun _ v hv => ?_
        cases hValue.symm.trans hv
      · rw [if_neg hAllowed] at hRun
        obtain ⟨rfl, -⟩ := Parser.pure_eq_done.mp hRun
        refine .narrow rfl ?_
        rw [hIndex]
        exact .late hValue
  · rw [if_pos hOffered] at hRun
    obtain ⟨rfl, -⟩ := Parser.pure_eq_done.mp hRun
    exact .wide hWide hAddress fun h => absurd h hOffered

/-- What has a width mark, and what reaches only the base page, is left as it is. -/
theorem resolved_of_matched (hMatched : Matched machine form e mark matched)
    (hRun : (if matched.forced then pure matched
      else Operand.narrow narrowing machine allowed matched) c = .done o c') :
    Resolved machine allowed form e mark o := by
  cases hMatched with
  | openWidth hWide hForced hValues =>
    rw [if_neg (by simp [hForced])] at hRun
    exact resolved_of_narrow hWide hValues hRun
  | page hWide hMode hForced hValue hPage =>
    rw [if_neg (by simp [hForced])] at hRun
    have hSame : Operand.narrow narrowing machine allowed matched = pure matched := by
      unfold Operand.narrow
      rw [show narrowing.find? (·.1 = matched.mode) = none by
        rw [hMode]
        exact find?_narrowing_of_page hWide]
    rw [hSame] at hRun
    obtain ⟨rfl, -⟩ := Parser.pure_eq_done.mp hRun
    refine .narrow hMode ?_
    rwa [Operand.value, hValue]
  | narrow hWide =>
    obtain ⟨rfl, -⟩ := Parser.pure_eq_done.mp hRun
    refine .forcedNarrow rfl ?_
    rw [addressIndex_of_wide hWide]
    rfl
  | wide hWide =>
    obtain ⟨rfl, -⟩ := Parser.pure_eq_done.mp hRun
    refine .forcedWide hWide ?_
    rw [addressIndex_of_wide hWide]
    rfl

end

-- --------
-- Encodings with an address
-- --------

/-- The 32-bit operations, which stand behind two prefix bytes. -/
def Mnemonic.isQuad : Mnemonic → Bool
  | .quadAlu _ | .quadModify _ | .bitq | .asrq => true
  | _ => false

namespace AddressForm

/-- The modes of the form. -/
def Has (form : AddressForm) (mode : Mode) : Prop := mode = form.narrow ∨ form.wide? = some mode

/-- The bytes in front of the address: the opcode, for a 32-bit pointer behind a NOP. -/
def lead : AddressForm → Nat
  | .indirectLong => 2
  | _ => 1

/-- The bytes behind the address: a branch distance. -/
def trail : AddressForm → Nat
  | .bitRelative => 1
  | _ => 0

end AddressForm

theorem operandWidth?_narrow (form : AddressForm) : operandWidth? form.narrow = some .basePage := by
  cases form <;> rfl

theorem operandWidth?_of_wide {form : AddressForm} {mode : Mode} (h : form.wide? = some mode) :
    operandWidth? mode = some .word := by
  cases form <;> cases h <;> rfl

/-- The items of an instruction hold its address in a field of the given width. -/
structure HoldsAddress (form : AddressForm) (o : Operand Mode) (w : Width) (before : Nat)
    (items : List Item) : Prop where
  field : ∃ k, items[k]? = some (.value (o.value form.addressIndex) w) ∧
            Item.total (items.take k) = before
  size  : Item.total items = before + w.size + form.trail

section

variable {form : AddressForm} {o o₂ : Operand Mode} {w : Width} {items : List Item}
  {s : Setting Feature} {m : Mnemonic}

theorem lookupMode_mem {α : Type} {modes : List (Mode × α)} {mode : Mode} {a : α}
    (h : lookupMode modes mode = some a) : mode ∈ modes.map Prod.fst :=
  List.mem_map_of_mem (mem_of_lookupMode h)

/-- The modes whose address stands last, behind a single opcode. -/
def isRegular (mode : Mode) : Bool :=
  mode ∉ [Mode.zeroPageBit, .zeroPageBitRelative, .indirectLongZ]

/-- A mode of a form that reaches only the base page belongs to no other form. -/
theorem eq_of_has_narrow {form' : AddressForm} {mode : Mode} (hMode : mode = form'.narrow)
    (hWide : form'.wide? = none) (h : form.Has mode) : form = form' := by
  subst hMode
  rcases h with h | h <;> cases form' <;> cases hWide <;> cases form <;> cases h <;> rfl

theorem shape_of_regular {mode : Mode} (hForm : form.Has mode) (hRegular : isRegular mode = true) :
    form.addressIndex = 0 ∧ form.trail = 0 ∧ form.lead = 1 := by
  rcases hForm with rfl | hWide
  · revert hRegular
    cases form <;> decide
  · cases form <;> cases hWide <;> decide

/-- An opcode with the address behind it. -/
theorem holdsAddress_opcode (opcode : UInt8) (hForm : form.Has o.mode)
    (hRegular : isRegular o.mode = true) (hWidth : operandWidth? o.mode = some w) :
    HoldsAddress form o w form.lead (.bytes [opcode] :: operandItems o) := by
  obtain ⟨hIndex, hTrail, hLead⟩ := shape_of_regular hForm hRegular
  constructor
  · exact ⟨1, by simp [operandItems, hWidth, hIndex], by rw [hLead]; rfl⟩
  · simp [operandItems, hWidth, Item.total, Item.size, hTrail, hLead]

theorem holdsAddress_alu {op : Alu} (hForm : form.Has o.mode) (hWidth : operandWidth? o.mode = some w)
    (h : aluItems ⟨m, o, o₂⟩ op = .ok items) : HoldsAddress form o w form.lead items := by
  have hOffsets : ∀ mode ∈ Alu.offsets.map Prod.fst, mode ≠ .indirectLongZ → isRegular mode = true := by
    decide
  unfold aluItems at h
  dsimp only at h
  split at h
  · next hStack =>
    cases h
    exact holdsAddress_opcode _ hForm (by rw [hStack]; rfl) hWidth
  · next hLong _ =>
    cases h
    obtain rfl : form = .indirectLong := eq_of_has_narrow hLong rfl hForm
    constructor
    · exact ⟨2, by simp [operandItems, hWidth, AddressForm.addressIndex], rfl⟩
    · simp [operandItems, hWidth, Item.total, Item.size, AddressForm.trail, AddressForm.lead]
      omega
  · next hOffset _ hNotLong =>
    cases h
    exact holdsAddress_opcode _ hForm (hOffsets _ (lookupMode_mem hOffset) hNotLong) hWidth
  · cases h

theorem holdsAddress_modify {op : Modify} (hForm : form.Has o.mode)
    (hWidth : operandWidth? o.mode = some w) (h : modifyItems s ⟨m, o, o₂⟩ op = .ok items) :
    HoldsAddress form o w form.lead items := by
  have hOffsets : ∀ mode ∈ Modify.offsets.map Prod.fst, isRegular mode = true := by decide
  have hAddress : ¬ (o.mode = .none ∨ o.mode = .accumulator) := by
    rintro (hMode | hMode) <;> rw [hMode] at hWidth <;> cases hWidth
  unfold modifyItems at h
  simp only [hAddress, if_false] at h
  split at h
  · next offset hOffset =>
    cases h
    exact holdsAddress_opcode _ hForm (hOffsets _ (lookupMode_mem hOffset)) hWidth
  · cases h

theorem holdsAddress_special {op : Special} (hForm : form.Has o.mode)
    (hWidth : operandWidth? o.mode = some w) (h : specialItems s ⟨m, o, o₂⟩ op = .ok items) :
    HoldsAddress form o w form.lead items := by
  have hForms : ∀ op ∈ Special.all, ∀ f ∈ op.forms, isRegular f.mode = true := by decide
  unfold specialItems at h
  dsimp only at h
  split at h
  · next f hFind =>
    split at h
    · cases h
      have hMode : f.mode = o.mode := by simpa using List.find?_some hFind
      have hRegular := hForms op (Special.mem_all op) f (List.mem_of_find?_eq_some hFind)
      rw [hMode] at hRegular
      exact holdsAddress_opcode _ hForm hRegular hWidth
    · cases h
  · cases h

theorem holdsAddress_bit {op : BitOp} (hForm : form.Has o.mode) (hAllowed : o.mode = op.mode)
    (hWidth : operandWidth? o.mode = some w) (h : bitItems s ⟨m, o, o₂⟩ op = .ok items) :
    HoldsAddress form o w form.lead items := by
  obtain rfl : w = .basePage := by
    rw [hAllowed] at hWidth
    cases op <;> cases hWidth <;> rfl
  unfold bitItems at h
  dsimp only at h
  split at h
  · cases h
  · next bit hBit =>
    by_cases hRelative : o.mode = .zeroPageBitRelative
    · obtain rfl : form = .bitRelative := eq_of_has_narrow hRelative rfl hForm
      rw [if_pos hRelative] at h
      cases h
      exact ⟨⟨1, rfl, rfl⟩, rfl⟩
    · have hBitMode : o.mode = .zeroPageBit := by
        rw [hAllowed] at hRelative ⊢
        cases op <;> simp_all [BitOp.mode]
      obtain rfl : form = .bit := eq_of_has_narrow hBitMode rfl hForm
      rw [if_neg hRelative] at h
      cases h
      exact ⟨⟨1, rfl, rfl⟩, rfl⟩

/-- **The encoding of an instruction with an address** is its opcode, then the address, then for some bit
instructions a branch distance. -/
theorem holdsAddress_native (hTransfer : m.isTransfer = false) (hQuad : m.isQuad = false)
    (hAllowed : o.mode ∈ (entry m).first) (hForm : form.Has o.mode)
    (hWidth : operandWidth? o.mode = some w) (h : native s ⟨m, o, o₂⟩ = .ok items) :
    HoldsAddress form o w form.lead items := by
  cases m with
  | alu op => exact holdsAddress_alu hForm hWidth h
  | modify op => exact holdsAddress_modify hForm hWidth h
  | special op => exact holdsAddress_special hForm hWidth h
  | bit op => exact holdsAddress_bit hForm (of_decide_eq_true hAllowed) hWidth h
  | implied op =>
    have hNone : o.mode = .none := of_decide_eq_true hAllowed
    rw [hNone] at hWidth
    cases hWidth
  | branch c | bra | bsr | jump c => cases hTransfer
  | quadAlu op | quadModify op | bitq | asrq => cases hQuad

theorem HoldsAddress.cons {before : Nat} (h : HoldsAddress form o w before items)
    (bytes : List UInt8) : HoldsAddress form o w (bytes.length + before) (.bytes bytes :: items) := by
  obtain ⟨⟨k, hItem, hBefore⟩, hSize⟩ := h
  constructor
  · refine ⟨k + 1, hItem, ?_⟩
    rw [List.take_succ_cons, ← hBefore]
    rfl
  · show bytes.length + Item.total items = _
    omega

theorem expansion?_eq_none (hTransfer : m.isTransfer = false) (hQuad : m.isQuad = false) :
    expansion? s ⟨m, o, o₂⟩ = none := by
  cases m with
  | alu _ | modify _ | special _ | implied _ | bit _ => rfl
  | branch _ | bra | bsr | jump _ => cases hTransfer
  | quadAlu _ | quadModify _ | bitq | asrq => cases hQuad

/-- A 32-bit operation is an 8-bit one behind its prefix. -/
theorem expansion?_of_isQuad (hQuad : m.isQuad = true) :
    ∃ single, single.isTransfer = false ∧ single.isQuad = false ∧
      (entry m).first ⊆ (entry single).first ∧
      ∀ (s : Setting Feature) (o o₂ : Operand Mode), o.mode ≠ .immediate →
        expansion? s ⟨m, o, o₂⟩ = some (quad ⟨m, o, o₂⟩ single) := by
  cases m with
  | quadAlu op =>
    refine ⟨.alu op, rfl, rfl, FlagSet.includes_iff.mp (by cases op <;> decide), fun s o o₂ hMode => ?_⟩
    cases op <;> simp [expansion?, hMode]
  | quadModify op =>
    exact ⟨.modify op, rfl, rfl, FlagSet.includes_iff.mp (by cases op <;> decide),
      fun s o o₂ _ => rfl⟩
  | bitq => exact ⟨.special .bit, rfl, rfl, FlagSet.includes_iff.mp (by decide), fun s o o₂ _ => rfl⟩
  | asrq => exact ⟨.special .asr, rfl, rfl, FlagSet.includes_iff.mp (by decide), fun s o o₂ _ => rfl⟩
  | _ => cases hQuad

/-- The bytes in front of the opcode. -/
def Mnemonic.lead (m : Mnemonic) : Nat := if m.isQuad then 2 else 0

/-- **What an instruction with an address writes.** -/
theorem holdsAddress_finish {site : Site Feature} {a out : Encoder} (hTransfer : m.isTransfer = false)
    (hAllowed : o.mode ∈ (entry m).first) (hForm : form.Has o.mode)
    (hWidth : operandWidth? o.mode = some w)
    (h : finish family site ⟨m, o, o₂⟩ a = .ok () out) :
    ∃ items, out.output = a.output.writeAll items ∧
      HoldsAddress form o w (m.lead + form.lead) items := by
  have hOutput := writes_finish h
  by_cases hQuad : m.isQuad = true
  · obtain ⟨single, hSingle, hNotQuad, hModes, hExpansion⟩ := expansion?_of_isQuad hQuad
    have hMode : o.mode ≠ .immediate := by
      intro hMode
      rw [hMode] at hForm
      rcases hForm with hMode | hMode <;> cases form <;> cases hMode
    rw [show family.expansion? = expansion? from rfl, hExpansion _ o o₂ hMode] at hOutput
    obtain ⟨label, s₁, hStart, hParts⟩ := hOutput
    obtain ⟨s₂, hPrefix, hRest⟩ := Action.forM_cons_eq_ok.mp hParts
    obtain ⟨s₃, hNative, hDone⟩ := Action.forM_cons_eq_ok.mp hRest
    obtain ⟨-, rfl⟩ := Action.pure_eq_ok.mp hDone
    have hAfter : s₂.output = a.output.write (.bytes [0x42, 0x42]) := by
      rw [← Action.modify_eq_ok.mp hPrefix, ← hStart]
      rfl
    obtain ⟨items, hItems, hWritten⟩ := writes_encodeNative hNative
    have hHolds := holdsAddress_native hSingle hNotQuad (hModes _ hAllowed) hForm hWidth hItems
    refine ⟨.bytes [0x42, 0x42] :: items, ?_, ?_⟩
    · rw [hWritten.output, hAfter]
      rfl
    · rw [Mnemonic.lead, if_pos hQuad]
      exact hHolds.cons [0x42, 0x42]
  · have hSingle : m.isQuad = false := Bool.eq_false_iff.mpr hQuad
    rw [show family.expansion? = expansion? from rfl, expansion?_eq_none hTransfer hSingle] at hOutput
    obtain ⟨items, hNative, hWritten⟩ := hOutput
    refine ⟨items, hWritten.output, ?_⟩
    rw [Mnemonic.lead, if_neg hQuad, Nat.zero_add]
    exact holdsAddress_native hTransfer hSingle hAllowed hForm hWidth hNative

end

-- --------
-- The address field
-- --------

/-- What the field of an address says about its value: all of it behind the number of the base page in one
byte, its lowest 16 bits in two. A mark for the base page keeps the low byte of any address. -/
def Carries (page : Int) (v : Value) (mark : WidthMark) (address : List UInt8) : Prop :=
  match mark, address.length with
  | .unmarked, 1 => v.toInt = 256 * page + Width.ofLowBytes address
  | .narrow, 1 => (Width.ofLowBytes address : Int) = v.toInt % 256
  | .unmarked, 2 | .wide, 2 => (Width.ofLowBytes address : Int) = v.toInt % 65536
  | _, _ => False

section

variable {machine : Machine Feature} {e a : Expr} {t : SymbolTable} {base v : Value} {page : Int}
  (hPage : 0 ≤ machine.basePage.toInt ∧ machine.basePage.toInt ≤ 255)

include hPage

theorem toInt_baseAddress : machine.baseAddress.toInt = 256 * machine.basePage.toInt := by
  have hFactor : (0x100 : Value).toInt = 256 := rfl
  have hProduct : machine.baseAddress.toInt = machine.basePage.toInt * (0x100 : Value).toInt :=
    Value.toInt_mul_of_lt (by rw [hFactor]; omega) (by rw [hFactor]; omega)
  rw [hFactor] at hProduct
  omega

theorem inBasePage_iff :
    machine.inBasePage v = true ↔
      256 * machine.basePage.toInt ≤ v.toInt ∧ v.toInt ≤ 256 * machine.basePage.toInt + 255 := by
  have hStart := toInt_baseAddress hPage
  have hLast : (0xff : Value).toInt = 255 := rfl
  have hStop : machine.baseEnd.toInt = machine.baseAddress.toInt + (0xff : Value).toInt :=
    Value.toInt_add_of_lt (by omega) (by omega)
  rw [Machine.inBasePage, Value.within_iff, hStop, hStart, hLast]

/-- An offset in the base page stands for the address it was made from. -/
theorem carries_of_pageRelative {offset : Value} (hRelative : PageRelative machine e a)
    (hOffset : t.evaluate base a = .ok offset)
    (hFits : a.value? = none → Width.basePage.fits offset = true) :
    ∃ v, t.evaluate base e = .ok v ∧
      Carries machine.basePage.toInt v .unmarked (Width.basePage.encode offset) := by
  have hField : (Width.ofLowBytes (Width.basePage.encode offset) : Int) = offset.toInt % 256 :=
    Width.decode_encode .basePage offset
  cases hRelative with
  | @known v hValue hInside =>
    have hMasked : t.evaluate base (e.mask 8) = .ok (v &&& Expr.lowMask 8) :=
      Expr.evaluate_of_value? (Expr.value?_mask hValue 8)
    have hSame : v &&& Expr.lowMask 8 = offset := Except.ok.inj (hMasked.symm.trans hOffset)
    have hLow : offset.toInt = v.toInt % 2 ^ 8 := by
      rw [← hSame]
      exact Expr.toInt_and_lowMask v (by decide)
    obtain ⟨hStart, hStop⟩ := (inBasePage_iff hPage).mp hInside
    refine ⟨v, Expr.evaluate_of_value? hValue, ?_⟩
    show v.toInt = 256 * machine.basePage.toInt + Width.ofLowBytes _
    omega
  | late hLate =>
    have hRange := Width.fits_basePage_iff.mp (hFits (Expr.value?_offsetBy_eq_none hLate _))
    obtain ⟨v, hValue, hSame⟩ :=
      Action.map_eq_ok.mp ((Expr.evaluate_offsetBy e _).symm.trans hOffset)
    have hBack : offset + machine.baseAddress = v := by
      rw [← hSame, Int64.add_assoc, Int64.add_left_neg, Int64.add_zero]
    have hStart := toInt_baseAddress hPage
    have hSum : v.toInt = offset.toInt + machine.baseAddress.toInt := by
      rw [← hBack]
      exact Value.toInt_add_of_lt (by omega) (by omega)
    refine ⟨v, hValue, ?_⟩
    show v.toInt = 256 * machine.basePage.toInt + Width.ofLowBytes _
    omega

theorem carries_of_resolved {allowed : Modes} {form : AddressForm} {mark : WidthMark} {o : Operand Mode}
    {w : Width} {written : Value} (hResolved : Resolved machine allowed form e mark o)
    (hWidth : operandWidth? o.mode = some w)
    (hWritten : t.evaluate base (o.value form.addressIndex) = .ok written)
    (hFits : (o.value form.addressIndex).value? = none → w.fits written = true) :
    ∃ v, t.evaluate base e = .ok v ∧ Carries machine.basePage.toInt v mark (w.encode written) := by
  have hDecode := Width.decode_encode w written
  cases hResolved with
  | narrow hMode hRelative =>
    rw [hMode, operandWidth?_narrow] at hWidth
    obtain rfl := Option.some.inj hWidth
    exact carries_of_pageRelative hPage hRelative hWritten hFits
  | wide hMode hValue _ =>
    rw [operandWidth?_of_wide hMode] at hWidth
    obtain rfl := Option.some.inj hWidth
    rw [hValue] at hWritten
    exact ⟨written, hWritten, hDecode⟩
  | forcedWide hMode hValue =>
    rw [operandWidth?_of_wide hMode] at hWidth
    obtain rfl := Option.some.inj hWidth
    rw [hValue] at hWritten
    exact ⟨written, hWritten, hDecode⟩
  | forcedNarrow hMode hValue =>
    rw [hMode, operandWidth?_narrow] at hWidth
    obtain rfl := Option.some.inj hWidth
    rw [hValue] at hWritten
    obtain ⟨v, hEval, hSame⟩ := Action.map_eq_ok.mp ((Expr.evaluate_mask e 8).symm.trans hWritten)
    have hLow : written.toInt = v.toInt % 2 ^ 8 := by
      rw [← hSame]
      exact Expr.toInt_and_lowMask v (by decide)
    refine ⟨v, hEval, ?_⟩
    have hField : (Width.ofLowBytes (Width.basePage.encode written) : Int) = written.toInt % 256 :=
      hDecode
    show (Width.ofLowBytes (Width.basePage.encode written) : Int) = v.toInt % 256
    omega

end

-- --------
-- Effective addresses
-- --------

/-- The bytes from `start` to `stop` are an instruction with the given bytes in its address field. -/
structure EncodesAddress (m : Mnemonic) (form : AddressForm) (bytes : List UInt8) (start stop : Nat)
    (address : List UInt8) : Prop where
  field  : field bytes (start + (m.lead + form.lead)) address.length = address
  extent : stop = start + (m.lead + form.lead) + address.length + form.trail

section

variable {m : Mnemonic} {form form₀ : AddressForm} {mark : WidthMark} {e e₀ : Expr}

theorem Resolved.has {machine : Machine Feature} {allowed : Modes} {o : Operand Mode}
    (h : Resolved machine allowed form e mark o) : form.Has o.mode := by
  cases h with
  | narrow hMode _ => exact .inl hMode
  | wide hMode _ _ => exact .inr hMode
  | forcedNarrow hMode _ => exact .inl hMode
  | forcedWide hMode _ => exact .inr hMode

theorem exists_operandWidth {mode : Mode} (h : form.Has mode) : ∃ w, operandWidth? mode = some w := by
  rcases h with rfl | h
  · exact ⟨_, operandWidth?_narrow form⟩
  · exact ⟨_, operandWidth?_of_wide h⟩

/-- The operand of an instruction is the one that its text is resolved to. -/
theorem resolved_of_operands {w : Pending Mnemonic Feature} {first second : Operand Mode} {c' stop : Cursor}
    (hTransfer : w.mnemonic.isTransfer = false)
    (hText : Spelled (w.scope family) w.mnemonic w.implied w.state.cursor form mark e c')
    (hEnd : c'.atStatementEnd = true) (hOperands : w.operands family = .ok (first, second, stop)) :
    ∃ form₀ e₀, Regrouped w.mnemonic mark form e form₀ e₀ ∧
      Resolved w.state.machine (entry w.mnemonic).first form₀ e₀ mark first ∧
      first.mode ∈ (entry w.mnemonic).first := by
  have hSecond : ∀ m ∈ Mnemonic.all, (entry m).second = none := by decide +kernel
  have hResolve := resolve_of_resolveOperands (hSecond _ (Mnemonic.mem_all _)) hOperands
  obtain ⟨matched, c₁, hGrammar, hNarrow, hAllowed⟩ := Operand.exists_matched_of_resolve hResolve
  obtain ⟨form₀, e₀, hRegrouped, hMatched⟩ := matched_of_spelled rfl hTransfer hText hEnd hGrammar
  exact ⟨form₀, e₀, hRegrouped, resolved_of_matched hMatched hNarrow, hAllowed⟩

/-- An instruction that offers a plain address in the base page and indirect addresses also offers
indirect ones there. -/
theorem narrow_offered_of_regrouped {wide : Mode} (h : Regrouped m mark form e form₀ e₀)
    (hWide : form₀.wide? = some wide) (hOffered : form.narrow ∈ (entry m).first) :
    form₀.narrow ∈ (entry m).first := by
  cases h with
  | same => exact hOffered
  | indirect hHas =>
    have hTable : ∀ m ∈ Mnemonic.all, (entry m).first.meets parenthesized = true →
        Mode.zeroPage ∈ (entry m).first → Mode.zeroPageIndirect ∈ (entry m).first := by decide +kernel
    exact hTable m (Mnemonic.mem_all m) hHas hOffered
  | indirectY hHas => cases hWide

/-- The two readings differ neither in the value of the address nor in its place. -/
theorem Regrouped.agree (h : Regrouped m mark form e form₀ e₀) :
    e.value? = e₀.value? ∧ (∀ base lookup, e.evaluate base lookup = e₀.evaluate base lookup) ∧
      form.lead = form₀.lead ∧ form.trail = form₀.trail := by
  cases h with
  | same | indirect _ | indirectY _ => exact ⟨rfl, fun _ _ => rfl, rfl, rfl⟩

/-- A known address in the base page takes one byte where it can. -/
theorem Resolved.size_eq_one {machine : Machine Feature} {allowed : Modes} {o : Operand Mode} {w : Width}
    {v : Value} (h : Resolved machine allowed form e .unmarked o) (hWidth : operandWidth? o.mode = some w)
    (hOffered : ∀ wide, form.wide? = some wide → form.narrow ∈ allowed) (hKnown : e.value? = some v)
    (hInside : machine.inBasePage v = true) : w.size = 1 := by
  cases h with
  | narrow hMode _ =>
    rw [hMode, operandWidth?_narrow] at hWidth
    obtain rfl := Option.some.inj hWidth
    rfl
  | wide hMode _ hNarrow =>
    have hOutside := hNarrow (hOffered _ hMode) v hKnown
    rw [hInside] at hOutside
    cases hOutside

end

/-- **Effective addresses.** Take an instruction with an address operand in a program that was assembled
and linked, and the base page at its statement. The address field is as `Carries` says: without a width
mark, one byte is the address behind the number of the base page, two bytes are the address modulo
65536, and a known address in the base page takes one byte if the instruction offers that. With a width
mark the operand has the mode that the mark selects. -/
theorem effective_address {machine : Machine Feature} {policy : Policy} {source : String} {p : Program}
    {base : Value} {blocks : List Block} {s : Assembly Feature} {w : Pending Mnemonic Feature}
    {form : AddressForm} {mark : WidthMark} {e : Expr} {c' : Cursor}
    (hAssembled : (family.assemble machine policy source).result = .ok p)
    (hLinked : p.linkSections base = .ok blocks)
    (hs : s ∈ family.states machine policy source) (hw : Assembly.pending? family s = some w)
    (hTransfer : w.mnemonic.isTransfer = false)
    (hPage : 0 ≤ s.machine.basePage.toInt ∧ s.machine.basePage.toInt ≤ 255)
    (hText : Spelled (w.scope family) w.mnemonic w.implied w.state.cursor form mark e c')
    (hEnd : c'.atStatementEnd = true) :
    let page := s.machine.basePage.toInt
    ∃ first second stop out block address v,
      w.operands family = .ok (first, second, stop) ∧
      finish family (w.site policy) ⟨w.mnemonic, first, second⟩ w.encoder = .ok () out ∧
      blocks[s.regionIndex]? = some block ∧
      EncodesAddress w.mnemonic form block.bytes s.current.output.size out.output.size address ∧
      p.symbols.evaluate base e = .ok v ∧ Carries page v mark address ∧
      (mark = .unmarked → form.narrow ∈ (entry w.mnemonic).first → e.value? = some v →
        256 * page ≤ v.toInt → v.toInt ≤ 256 * page + 255 → address.length = 1) ∧
      (mark = .narrow → first.mode = form.narrow) ∧ (mark = .wide → form.wide? = some first.mode) := by
  obtain ⟨first, second, stop, out, r, hOperands, -, hFinish, hStart, hr, hExtends, hWell⟩ :=
    Family.accepted_instruction hAssembled hs hw
  -- Reading the label of the statement changes neither the machine nor the output.
  obtain ⟨symbols, c₁, hState⟩ := Assembly.relabels_of_pending? hw
  have hMachine : w.state.machine = s.machine := by rw [hState]
  have hOutput : w.encoder.output = s.current.output := by
    show w.state.current.output = _
    rw [hState]
  obtain ⟨form₀, e₀, hRegrouped, hResolved, hAllowed⟩ :=
    resolved_of_operands hTransfer hText hEnd hOperands
  rw [hMachine] at hResolved
  obtain ⟨hKnown, hEvaluate, hLead, hTrail⟩ := hRegrouped.agree
  obtain ⟨width, hWidth⟩ := exists_operandWidth hResolved.has
  obtain ⟨items, hItems, ⟨k, hItem, hBefore⟩, hSize⟩ :=
    holdsAddress_finish hTransfer hAllowed hResolved.has hWidth hFinish
  obtain ⟨block, hBlock, hLink⟩ := Program.block_of_linkSections hLinked hr
  rw [hItems] at hExtends
  obtain ⟨written, hWritten, hFits, hField⟩ :=
    field_link_writeAll hStart hExtends hItem hWell hLink
  obtain ⟨v, hValue, hCarries⟩ := carries_of_resolved hPage hResolved hWidth hWritten hFits
  refine ⟨first, second, stop, out, block, width.encode written, v, hOperands, hFinish, hBlock,
    ⟨?_, ?_⟩, ?_, hCarries, ?_, ?_, ?_⟩
  · rw [hLead, ← hBefore, ← hOutput, Width.length_encode]
    exact hField
  · rw [hItems, size_writeAll, hSize, hOutput, hLead, hTrail, Width.length_encode]
    omega
  · exact (hEvaluate _ _).trans hValue
  · rintro rfl hOffered hValue? hLow hHigh
    rw [Width.length_encode]
    refine hResolved.size_eq_one hWidth (fun wide hWide => ?_) (hKnown ▸ hValue?)
      ((inBasePage_iff hPage).mpr ⟨hLow, hHigh⟩)
    exact narrow_offered_of_regrouped hRegrouped hWide hOffered
  · rintro rfl
    cases hRegrouped
    cases hResolved with
    | forcedNarrow hMode _ => exact hMode
  · rintro rfl
    cases hRegrouped
    cases hResolved with
    | forcedWide hMode _ => exact hMode

set_option maxRecDepth 10000 in
theorem effective_address_indirect :
    ∃ p blocks s w stop,
      (family.assemble { features := {.base}, basePage := 2 } {} "lda (*),y").result = .ok p ∧
      p.linkSections 0x210 = .ok blocks ∧
      s ∈ family.states { features := {.base}, basePage := 2 } {} "lda (*),y" ∧
      Assembly.pending? family s = some w ∧ s.machine.basePage.toInt = 2 ∧
      Spelled (w.scope family) w.mnemonic w.implied w.state.cursor .indirectY .unmarked
        (.counter 0 ⟨5, 1⟩) stop ∧ stop.atStatementEnd = true ∧
      ∃ block address v, blocks[s.regionIndex]? = some block ∧
        field block.bytes (s.current.output.size + 1) address.length = address ∧
        p.symbols.evaluate 0x210 (.counter 0 ⟨5, 1⟩) = .ok v ∧ Carries 2 v .unmarked address := by
  have hLinks : ((family.assemble { features := {.base}, basePage := 2 } {} "lda (*),y").result.toOption.any
      fun p => (p.linkSections 0x210).toOption.isSome) = true := by decide +kernel
  obtain ⟨p, hp, hSome⟩ := (Option.any_eq_true _ _).mp hLinks
  obtain ⟨blocks, hBlocks⟩ := Option.isSome_iff_exists.mp hSome
  have hStates : (family.states { features := {.base}, basePage := 2 } {} "lda (*),y").any (fun s =>
      decide (s.machine.basePage = 2) && (Assembly.pending? family s).any fun w =>
        decide (w.mnemonic = .alu .lda) && decide (w.state.cursor =
          ⟨[⟨.mark .openParen, ⟨4, 1⟩⟩, ⟨.mark .star, ⟨5, 1⟩⟩, ⟨.mark .closeParen, ⟨6, 1⟩⟩,
            ⟨.mark .comma, ⟨7, 1⟩⟩, ⟨.identifier "y", ⟨8, 1⟩⟩], 9⟩) &&
        decide ((w.scope family).counter.withSpan ⟨5, 1⟩ = .counter 0 ⟨5, 1⟩)) = true := by
    decide +kernel
  obtain ⟨s, hs, hCheck⟩ := List.any_eq_true.mp hStates
  simp only [Bool.and_eq_true, decide_eq_true_eq, Option.any_eq_true] at hCheck
  obtain ⟨hPage, w, hw, ⟨hMnemonic, hCursor⟩, hCounter⟩ := hCheck
  have hParse : Expr.parse (w.scope family) 0
      ⟨[⟨.mark .star, ⟨5, 1⟩⟩, ⟨.mark .closeParen, ⟨6, 1⟩⟩, ⟨.mark .comma, ⟨7, 1⟩⟩,
        ⟨.identifier "y", ⟨8, 1⟩⟩], 9⟩ =
      .done (.counter 0 ⟨5, 1⟩)
        ⟨[⟨.mark .closeParen, ⟨6, 1⟩⟩, ⟨.mark .comma, ⟨7, 1⟩⟩, ⟨.identifier "y", ⟨8, 1⟩⟩], 9⟩ := by
    rw [← hCounter]
    rfl
  have hIndex : (⟨[⟨.identifier "y", ⟨8, 1⟩⟩], 9⟩ : Cursor).eatWord? "y" =
      some (⟨.identifier "y", ⟨8, 1⟩⟩, ⟨[], 9⟩) := by decide +kernel
  have hText : Spelled (w.scope family) w.mnemonic w.implied w.state.cursor .indirectY .unmarked
      (.counter 0 ⟨5, 1⟩) ⟨[], 9⟩ := by
    rw [hCursor, hMnemonic]
    exact .indirectY (.indirect (by decide) rfl hParse rfl) rfl hIndex
  have hTwo : s.machine.basePage.toInt = 2 := by
    rw [hPage]
    rfl
  obtain ⟨-, -, -, out, block, address, v, -, -, hBlock, hEncodes, hValue, hCarries, -⟩ :=
    effective_address (Action.ok_of_toOption hp) (Action.ok_of_toOption hBlocks) hs hw
      (by rw [hMnemonic]; rfl) (by rw [hTwo]; decide) hText rfl
  rw [hMnemonic] at hEncodes
  rw [hTwo] at hCarries
  exact ⟨p, blocks, s, w, _, Action.ok_of_toOption hp, Action.ok_of_toOption hBlocks, hs, hw, hTwo,
    hText, rfl, block, address, v, hBlock, hEncodes.field, hValue, hCarries⟩

end CrossAsm.Mos65
