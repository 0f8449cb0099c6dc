import CrossAsm.Proofs.Assembly.Fresh
import CrossAsm.Proofs.Assembly.Likeness
import CrossAsm.Proofs.Assembly.Symbols
import CrossAsm.Proofs.Program.Link

/-!
# CrossAsm — made-up labels

Synthesized code jumps to labels that are made up for it. They are numbered across the whole run, and a statement
that fails does not give its numbers back, although its output is taken back.

* `Family.Shipped.mentions` — a label is bound at the end of the expansion that mentions it.
* `Assembly.madeUp_visits` — the labels of a run come in the order of their numbers.
* `Program.known_of_mem_mentioned` — what a program mentions is a name of its source or has a definition.
* `Program.mem_of_unresolved` — so linking misses no definition but one of a name of the source.
* `Family.made_up_labels_never_clash_nor_dangle` — the labels stay apart from all names and from one another, each
  one that a program mentions is defined once, and linking finds it.
-/

namespace CrossAsm

-- --------
-- The labels of expansions
-- --------

namespace Mos65

variable {s : Setting Feature} {i : Instr} {x : Expanded}

theorem native_label (s : Setting Feature) (label : Expr) (i : Instr) : native { s with label } i = native s i := by
  unfold native
  cases i.mnemonic <;> rfl

theorem expansion?_label (h : expansion? s i = some x) (hLabelled : x.labelled = false) (label : Expr) :
    expansion? { s with label } i = some x := by
  obtain ⟨m, o, o'⟩ := i
  cases m with
  | jump c =>
    obtain rfl := Option.some.inj h
    cases hLong : s.has {.ce02} with
    | true =>
      have hLong' : Setting.has { s with label } {.ce02} = true := hLong
      simp [expansion?, longJump, hLong, hLong']
    | false => simp [longJump, hLong] at hLabelled
  | quadAlu op => cases op <;> exact h
  | _ => exact h

/-- The label stands behind the jump that is branched over. -/
theorem endsWithLabel_expansion? (h : expansion? s i = some x) : x.EndsWithLabel := by
  have hQuad (single : Mnemonic) : (quad i single).EndsWithLabel := .of_unlabelled rfl (by simp [quad])
  unfold expansion? at h
  split at h
  · split at h
    · obtain rfl := Option.some.inj h
      refine .of_unlabelled rfl ?_
      simp only [loadQuad, quadBytes, quadLoads, part]
      grind
    · exact Option.some.inj h ▸ hQuad _
  · exact Option.some.inj h ▸ hQuad _
  · exact Option.some.inj h ▸ hQuad _
  · exact Option.some.inj h ▸ hQuad _
  · exact Option.some.inj h ▸ hQuad _
  · obtain rfl := Option.some.inj h
    unfold longJump
    dsimp only
    split
    · exact .of_unlabelled rfl (by simp [part])
    · exact ⟨[_, _], by simp [part], rfl⟩
  · cases h

end Mos65

namespace Z80

variable {s : Setting Feature} {i : Instr} {x : Expanded} {parts : List (Part Mnemonic Mode)}

theorem native_label (s : Setting Feature) (label : Expr) (i : Instr) : native { s with label } i = native s i := by
  unfold native
  cases i.mnemonic <;> rfl

theorem expansion?_label (h : expansion? s i = some x) (hLabelled : x.labelled = false) (label : Expr) :
    expansion? { s with label } i = some x := by
  obtain ⟨m, o, o'⟩ := i
  cases m with
  | jp =>
    obtain ⟨parts, -, rfl⟩ := Option.map_eq_some_iff.mp h
    cases hLabelled
  | _ => exact h

/-- What is synthesized without a jump over another one has no label. -/
theorem label_notMem {op : Shift}
    (h : copyPair i = some parts ∨ movePair i = some parts ∨ moveIndexed i = some parts ∨
      shiftPair i op = some parts ∨ farJump i = some parts) : .label ∉ parts := by
  unfold copyPair movePair moveIndexed shiftPair farJump at h
  dsimp only at h
  rcases h with h | h | h | h | h
  all_goals
    repeat' split at h
    all_goals cases h
    all_goals simp [part]

/-- The label stands behind the jump that is jumped over. -/
theorem parts_of_conditionalJump (h : conditionalJump s i = some parts) :
    ∃ front, .label ∉ front ∧ parts = front ++ [.label] := by
  unfold conditionalJump at h
  split at h
  · cases h
  · dsimp only at h
    split at h
    · cases h
      refine ⟨[_, _], ?_, rfl⟩
      split <;> simp [part]
    · cases h
      refine ⟨[_, _], ?_, rfl⟩
      split <;> simp [part]
    · cases h

theorem endsWithLabel_expansion? (h : expansion? s i = some x) : x.EndsWithLabel := by
  have hNone {parts : List (Part Mnemonic Mode)} (hParts : .label ∉ parts) :
      Expansion.EndsWithLabel ⟨true, false, parts⟩ := .of_unlabelled rfl hParts
  unfold expansion? at h
  split at h
  · obtain ⟨parts, hParts, rfl⟩ := Option.map_eq_some_iff.mp h
    simp only [Option.orElse_eq_orElse, Option.orElse_eq_or, Option.or_eq_some_iff] at hParts
    exact hNone (@label_notMem _ _ .rl (by tauto))
  · obtain ⟨parts, hParts, rfl⟩ := Option.map_eq_some_iff.mp h
    exact hNone (label_notMem (.inr (.inr (.inr (.inl hParts)))))
  · obtain ⟨parts, hParts, rfl⟩ := Option.map_eq_some_iff.mp h
    exact parts_of_conditionalJump hParts
  · obtain ⟨parts, hParts, rfl⟩ := Option.map_eq_some_iff.mp h
    exact hNone (@label_notMem _ _ .rl (.inr (.inr (.inr (.inr hParts)))))
  · cases h

end Z80

/-- The names that the families bring into their output are those of the operands and the made-up label. -/
theorem Family.Shipped.mentions {Mnemonic Mode Feature : Type} {F : Family Mnemonic Mode Feature} (hF : F.Shipped) :
    F.Mentions := by
  cases hF with
  | mos65 =>
    exact ⟨Mos65.family_respects, Mos65.native_label, Mos65.expansion?_label, Mos65.endsWithLabel_expansion?⟩
  | z80 => exact ⟨Z80.family_respects, Z80.native_label, Z80.expansion?_label, Z80.endsWithLabel_expansion?⟩

-- --------
-- The names of a source
-- --------

namespace Token

/-- The names in a text. One that is not made of tokens has none. -/
def identifiers (text : String) : List String :=
  match scan text with
  | .ok tokens => tokens.filterMap fun t => t.lexeme.name?
  | .error _ => []

theorem mem_identifiers_iff {text name : String} {tokens : List Token} (hScan : scan text = .ok tokens) :
    name ∈ identifiers text ↔ ∃ t ∈ tokens, t.lexeme = .identifier name := by
  have hName (lexeme : Lexeme) : lexeme.name? = some name ↔ lexeme = .identifier name := by
    cases lexeme <;> simp [Lexeme.name?]
  unfold identifiers
  rw [hScan, List.mem_filterMap]
  simp only [hName]

theorem plain_of_mem_identifiers {text : String} (name : String) (h : name ∈ identifiers text) :
    SymbolTable.Plain name := by
  cases hScan : scan text with
  | error d =>
    unfold identifiers at h
    rw [hScan] at h
    cases h
  | ok tokens =>
    obtain ⟨t, ht, hName⟩ := (mem_identifiers_iff hScan).mp h
    exact plain_of_scan hScan t ht name hName

end Token

-- --------
-- The labels of a run
-- --------

namespace SymbolTable

variable {t t' t'' : SymbolTable}

/-- The labels that were handed out between two tables. -/
def madeUp (t t' : SymbolTable) : List String :=
  (List.range' (t.minted + 1) (t'.minted - t.minted)).map syntheticName

theorem madeUp_self (t : SymbolTable) : t.madeUp t = [] := by
  unfold madeUp
  rw [Nat.sub_self]
  rfl

/-- What is handed out in two turns is handed out one behind the other. -/
theorem madeUp_append (h : t.minted ≤ t'.minted) (h' : t'.minted ≤ t''.minted) :
    t.madeUp t' ++ t'.madeUp t'' = t.madeUp t'' := by
  unfold madeUp
  rw [← List.map_append]
  have hStart : t'.minted + 1 = t.minted + 1 + (t'.minted - t.minted) := by omega
  have hLength : t''.minted - t.minted = (t'.minted - t.minted) + (t''.minted - t'.minted) := by omega
  rw [hLength, hStart, List.range'_append_1]

theorem nodup_madeUp (t t' : SymbolTable) : (t.madeUp t').Nodup := by
  refine List.Pairwise.map syntheticName ?_ List.nodup_range'
  intro m n hDistinct hSame
  exact hDistinct (syntheticName_inj hSame)

/-- Handing out a label makes up this one. -/
theorem madeUp_of_freshLabel {e e' : Encoder} {label : String} (h : Encoder.freshLabel e = .ok label e') :
    e.symbols.madeUp e'.symbols = [label] := by
  cases h
  show (List.range' _ (e.symbols.minted + 1 - e.symbols.minted)).map syntheticName = _
  rw [Nat.add_sub_cancel_left]
  rfl

end SymbolTable

namespace Assembly

variable {Mnemonic Mode Feature : Type} [DecidableEq Mode] [Flag Mode] [Flag Feature]
  {job : Job Mnemonic Mode Feature} {N : String → Prop} {s : Assembly Feature}

/-- The labels that are handed out in a step, until its statement is through or fails. -/
def madeUp (job : Job Mnemonic Mode Feature) (s : Assembly Feature) : List String :=
  if s.cursor.isAt .newline then []
  else s.symbols.madeUp (Action.stateAfter (wholeStatement job s)).symbols

/-- A failure takes no symbol back. -/
theorem madeUp_eq (s : Assembly Feature) : madeUp job s = s.symbols.madeUp (step job s).symbols := by
  unfold madeUp
  cases hAt : s.cursor.isAt .newline with
  | true =>
    rw [if_pos rfl, step_of_newline hAt]
    exact (SymbolTable.madeUp_self s.symbols).symm
  | false =>
    rw [if_neg Bool.false_ne_true, step_of_statement hAt]
    cases hRun : wholeStatement job s with
    | ok u s' =>
      rw [statement_of_ok hRun]
      rfl
    | error d s' =>
      obtain ⟨earlier, current, hBack⟩ := statement_of_error hRun
      rw [hBack]
      rfl

/-- **The labels of a run** are numbered in its order. -/
theorem madeUp_visits (hF : job.family.Mentions) (hPlain : ∀ name, N name → SymbolTable.Plain name)
    (hs : s.Sound N) (n : Nat) :
    s.symbols.minted ≤ (steps job n s).symbols.minted ∧
      (visits job n s).flatMap (madeUp job) = s.symbols.madeUp (steps job n s).symbols := by
  induction n generalizing s with
  | zero => exact ⟨Nat.le_refl _, (SymbolTable.madeUp_self s.symbols).symm⟩
  | succ n ih =>
    unfold steps visits
    split
    · exact ⟨Nat.le_refl _, (SymbolTable.madeUp_self s.symbols).symm⟩
    · have hStep : Mints s (step job s) := mints_step fun t ht name hName => hPlain name (hs.names t ht name hName)
      obtain ⟨hRest, hLabels⟩ := ih (sound_step hF hPlain hs)
      refine ⟨hStep.minted.trans hRest, ?_⟩
      rw [List.flatMap_cons, madeUp_eq, hLabels, SymbolTable.madeUp_append hStep.minted hRest]

omit [Flag Feature] in
/-- Nothing is defined or put out when a run starts. -/
theorem Sound.start (machine : Machine Feature) {c : Cursor} (hc : c.NamesIn N) :
    Sound N ({ machine, cursor := c } : Assembly Feature) := by
  refine ⟨hc, .empty N, List.forall_mem_singleton.mpr ?_⟩
  intro q hq
  cases hq

end Assembly

-- --------
-- Programs
-- --------

namespace Program

variable {p : Program} {N : String → Prop} {name : String}

/-- The names that values to be filled in and definitions mention. -/
def mentioned (p : Program) : List String :=
  (p.regions.flatMap fun r => r.output.patches.flatMap fun q => q.expr.symbols) ++
    p.symbols.symbols.flatMap fun x => x.value.symbols

/-- The names of a program are in `N` or have a definition. -/
structure Sound (N : String → Prop) (p : Program) : Prop where
  symbols : p.symbols.Sound N
  output  : ∀ r ∈ p.regions, r.output.RefersTo (p.symbols.Known N)

theorem known_of_mem_mentioned (h : p.Sound N) (hName : name ∈ p.mentioned) : p.symbols.Known N name := by
  rcases List.mem_append.mp hName with hName | hName
  · obtain ⟨r, hr, hName⟩ := List.mem_flatMap.mp hName
    obtain ⟨q, hq, hName⟩ := List.mem_flatMap.mp hName
    exact h.output r hr q hq name hName
  · obtain ⟨x, hx, hName⟩ := List.mem_flatMap.mp hName
    exact .inl (h.symbols.values x hx name hName)

/-- A name outside of `N` that is mentioned is defined exactly once. -/
theorem count_of_mem_mentioned (h : p.Sound N) (hName : name ∈ p.mentioned) (hNot : ¬ N name) :
    p.symbols.names.count name = 1 := by
  rw [h.symbols.distinct.count, if_pos ((known_of_mem_mentioned h hName).resolve_left hNot)]

/-- A layout fails for its own reasons. -/
theorem unresolved_ne_of_image {blocks : List Block} {d : Diagnostic} (h : Block.image blocks = .error d)
    (usage : Span) : d ≠ .unresolvedSymbol name usage := by
  have hLayOut (start : Value) (bs : List Block) (image : List UInt8)
      (hError : Block.layOut start image bs = .error d) : d ≠ .unresolvedSymbol name usage := by
    induction bs generalizing image with
    | nil => cases hError
    | cons b bs ih =>
      unfold Block.layOut at hError
      dsimp only at hError
      split at hError
      · cases hError
        simp
      · exact ih _ hError
  unfold Block.image at h
  split at h
  · cases h
  · exact hLayOut _ _ _ h

/-- **A definition that linking misses** is that of a name in `N`. -/
theorem mem_of_unresolved (h : p.Sound N) {base : Value} {f : Failure} (hLink : p.link base = .error f)
    {usage : Span} (hMem : .unresolvedSymbol name usage ∈ f.diagnostics) : N name := by
  unfold link at hLink
  split at hLink
  · next hSections =>
    cases hLink
    rw [diagnostics_of_linkSections hSections] at hMem
    obtain ⟨r, hr, hMem⟩ := List.mem_flatMap.mp hMem
    obtain ⟨q, hq, hFailure⟩ := List.mem_filterMap.mp hMem
    exact h.symbols.mem_of_unresolved (h.output r hr q hq) (Section.evaluate_of_failure? hFailure)
  · split at hLink
    · cases hLink
    · next hImage =>
      cases hLink
      exact absurd (List.mem_singleton.mp hMem).symm (unresolved_ne_of_image hImage usage)

end Program

namespace Family

variable {Mnemonic Mode Feature : Type} [DecidableEq Mode] [Flag Mode] [Flag Feature]
  {F : Family Mnemonic Mode Feature} {machine : Machine Feature} {policy : Policy} {source : String}

/-- The labels that are handed out while a source text is assembled. -/
def madeUp (F : Family Mnemonic Mode Feature) (machine : Machine Feature) (policy : Policy) (source : String) :
    List String :=
  (F.states machine policy source).flatMap (Assembly.madeUp (F.job policy source))

section

omit [DecidableEq Mode] [Flag Mode] [Flag Feature]

/-- A run starts in a sound state. -/
theorem sound_start (machine : Machine Feature) {tokens : List Token} (hScan : Token.scan source = .ok tokens) :
    Assembly.Sound (· ∈ Token.identifiers source)
      ({ machine, cursor := ⟨tokens, source.utf8ByteSize⟩ } : Assembly Feature) :=
  .start machine fun t ht _ hName => (Token.mem_identifiers_iff hScan).mpr ⟨t, ht, hName⟩

end

section Runs

variable (hF : F.Shipped)

include hF

theorem nodup_madeUp : (F.madeUp machine policy source).Nodup := by
  unfold madeUp
  cases hScan : Token.scan source with
  | error d =>
    unfold states
    rw [hScan]
    exact List.nodup_nil
  | ok tokens =>
    rw [states_of_scan F machine policy source hScan,
      (Assembly.madeUp_visits hF.mentions Token.plain_of_mem_identifiers (sound_start machine hScan) tokens.length).2]
    exact SymbolTable.nodup_madeUp _ _

theorem mem_of_redefined {name : String} {place first : Span}
    (h : .redefinedSymbol name place first ∈ F.failures machine policy source) :
    name ∈ Token.identifiers source := by
  obtain ⟨s, hs, hFailure⟩ := List.mem_filterMap.mp h
  obtain ⟨tokens, hScan, hVisit⟩ := visits_of_mem_states hs
  have hSound := Assembly.sound_of_mem_visits hF.mentions Token.plain_of_mem_identifiers
    (sound_start machine hScan) hVisit
  exact Assembly.redefined_of_failure? hF.mentions Token.plain_of_mem_identifiers hSound hFailure rfl

theorem sound_of_assemble {p : Program} (h : (F.assemble machine policy source).result = .ok p) :
    p.Sound (· ∈ Token.identifiers source) := by
  obtain ⟨tokens, final, hScan, rfl, -, rfl⟩ := exists_run h
  have hSound : (Assembly.steps (F.job policy source) tokens.length _).Sound _ :=
    Assembly.sound_steps hF.mentions Token.plain_of_mem_identifiers (sound_start machine hScan) tokens.length
  exact ⟨hSound.symbols, hSound.output⟩

end Runs

/-- **Made-up labels never clash and never dangle.** What is handed out is new each time, and no text has a name like
it. So no statement fails because it binds such a label, also not behind others that have failed: what is redefined
is a name of the source. If there is a program, each made-up label in it has one definition, and linking finds it. -/
theorem made_up_labels_never_clash_nor_dangle (hF : F.Shipped) (machine : Machine Feature) (policy : Policy)
    (source : String) :
    (∀ (e e' : Encoder) (label : String), Encoder.freshLabel e = .ok label e' →
      e.symbols.madeUp e'.symbols = [label]) ∧
    (F.madeUp machine policy source).Nodup ∧
    (∀ n text, SymbolTable.syntheticName n ∉ Token.identifiers text) ∧
    (∀ name place first, .redefinedSymbol name place first ∈ F.failures machine policy source →
      name ∈ Token.identifiers source) ∧
    ∀ p, (F.assemble machine policy source).result = .ok p →
      (∀ n, SymbolTable.syntheticName n ∈ p.mentioned →
        p.symbols.names.count (SymbolTable.syntheticName n) = 1) ∧
      ∀ base f, p.link base = .error f →
        ∀ n usage, .unresolvedSymbol (SymbolTable.syntheticName n) usage ∉ f.diagnostics := by
  have hPlain (n : Nat) (text : String) : SymbolTable.syntheticName n ∉ Token.identifiers text :=
    fun hName => Token.plain_of_mem_identifiers _ hName n rfl
  refine ⟨?_, nodup_madeUp hF, hPlain, ?_, ?_⟩
  · intro e e' label hFresh
    exact SymbolTable.madeUp_of_freshLabel hFresh
  · intro name place first hRedefined
    exact mem_of_redefined hF hRedefined
  · intro p hAssembled
    have hSound := sound_of_assemble hF hAssembled
    refine ⟨?_, ?_⟩
    · intro n hName
      exact Program.count_of_mem_mentioned hSound hName (hPlain n source)
    · intro base f hLink n usage hMem
      exact hPlain n source (Program.mem_of_unresolved hSound hLink hMem)

set_option maxRecDepth 10000 in
/-- The first jump of a source has bound its label when it fails, so the next one gets another label. In a program
with both jumps, the label of the second one is defined once. -/
theorem made_up_labels_never_clash_nor_dangle_jumps :
    (Mos65.family.madeUp { features := {.base} } {} "jeq far $\njne far\nfar:\n" =
        ["<synthetic 1>", "<synthetic 2>"] ∧
      (Mos65.family.madeUp { features := {.base} } {} "jeq far $\njne far\nfar:\n").Nodup) ∧
    ∃ p, (Mos65.family.assemble { features := {.base} } {} "jeq far\njne far\nfar:\n").result = .ok p ∧
      SymbolTable.syntheticName 2 ∈ p.mentioned ∧
      p.symbols.names.count (SymbolTable.syntheticName 2) = 1 := by
  have hFailing := made_up_labels_never_clash_nor_dangle .mos65 { features := {.base} } {}
    "jeq far $\njne far\nfar:\n"
  refine ⟨⟨by decide +kernel, hFailing.2.1⟩, ?_⟩
  have hRun : ((Mos65.family.assemble { features := {.base} } {} "jeq far\njne far\nfar:\n").result.toOption.any
      fun p => decide (SymbolTable.syntheticName 2 ∈ p.mentioned)) = true := by decide +kernel
  obtain ⟨p, hSome, hName⟩ := (Option.any_eq_true _ _).mp hRun
  have hAssembled := Action.ok_of_toOption hSome
  have hOnce := (made_up_labels_never_clash_nor_dangle .mos65 _ _ _).2.2.2.2 p hAssembled
  exact ⟨p, hAssembled, of_decide_eq_true hName, hOnce.1 2 (of_decide_eq_true hName)⟩

end Family

end CrossAsm
