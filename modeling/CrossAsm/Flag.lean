/-!
# CrossAsm — sets of flags

Addressing modes and CPU features are small closed vocabularies. A set of them is its membership test,
so two sets with the same members are the same set; everything that has to look at all members goes
through the list of the vocabulary, which is also the order in which sets are written out.
-/

namespace CrossAsm

/-- A closed vocabulary with names. -/
class Flag (α : Type) where
  /-- All flags in the order in which they are written out. -/
  all : List α
  /-- The name of a flag, in lower case with blanks. -/
  label : α → String
  mem_all : ∀ a : α, a ∈ all

/-- A set of flags. -/
structure FlagSet (α : Type) where
  has : α → Bool

namespace FlagSet

variable {α : Type}

@[ext] theorem ext {s t : FlagSet α} (h : ∀ a, s.has a = t.has a) : s = t := by
  cases s
  cases t
  congr
  exact funext h

instance : EmptyCollection (FlagSet α) where
  emptyCollection := ⟨fun _ => false⟩

instance [DecidableEq α] : Singleton α (FlagSet α) where
  singleton a := ⟨fun b => decide (b = a)⟩

instance [DecidableEq α] : Insert α (FlagSet α) where
  insert a s := ⟨fun b => decide (b = a) || s.has b⟩

instance : Union (FlagSet α) where
  union s t := ⟨fun a => s.has a || t.has a⟩

instance : SDiff (FlagSet α) where
  sdiff s t := ⟨fun a => s.has a && !t.has a⟩

instance : Membership α (FlagSet α) where
  mem s a := s.has a = true

instance (a : α) (s : FlagSet α) : Decidable (a ∈ s) := inferInstanceAs (Decidable (s.has a = true))

instance : HasSubset (FlagSet α) where
  Subset s t := ∀ a, a ∈ s → a ∈ t

/-- The set of the flags in a list. -/
def ofList [DecidableEq α] (flags : List α) : FlagSet α := ⟨fun a => decide (a ∈ flags)⟩

/-- All flags. -/
def full : FlagSet α := ⟨fun _ => true⟩

variable [Flag α]

/-- The flags of a set in the order of the vocabulary. -/
def toList (s : FlagSet α) : List α := (Flag.all : List α).filter s.has

/-- Whether a set has no flags. -/
def isEmpty (s : FlagSet α) : Bool := s.toList.isEmpty

/-- Whether two sets have a flag in common. -/
def meets (s t : FlagSet α) : Bool := (Flag.all : List α).any fun a => s.has a && t.has a

/-- Whether every flag of the second set is in the first. -/
def includes (s t : FlagSet α) : Bool := (Flag.all : List α).all fun a => !t.has a || s.has a

/-- The names of the flags of a set. -/
def labels (s : FlagSet α) : List String := s.toList.map Flag.label

/-- The names of the flags of a set in one text. -/
def text (s : FlagSet α) : String := ", ".intercalate s.labels

theorem includes_iff {s t : FlagSet α} : s.includes t = true ↔ t ⊆ s := by
  constructor
  · intro h a ha
    have := List.all_eq_true.1 h a (Flag.mem_all a)
    simp only [Bool.or_eq_true, Bool.not_eq_true'] at this
    rcases this with h | h
    · exact absurd ha (by simp [Membership.mem, h])
    · exact h
  · intro h
    refine List.all_eq_true.2 fun a _ => ?_
    by_cases ha : t.has a = true
    · simp [ha, show s.has a = true from h a ha]
    · simp [ha]

theorem meets_iff {s t : FlagSet α} : s.meets t = true ↔ ∃ a, a ∈ s ∧ a ∈ t := by
  constructor
  · intro h
    obtain ⟨a, _, ha⟩ := List.any_eq_true.1 h
    exact ⟨a, by simpa [Membership.mem] using ha⟩
  · rintro ⟨a, hs, ht⟩
    exact List.any_eq_true.2 ⟨a, Flag.mem_all a, by simp [show s.has a = true from hs,
      show t.has a = true from ht]⟩

instance : DecidableEq (FlagSet α) := fun s t =>
  if h : (Flag.all : List α).all (fun a => s.has a == t.has a) = true then
    isTrue (ext fun a => by simpa using List.all_eq_true.1 h a (Flag.mem_all a))
  else isFalse fun e => h (by subst e; simp)

end FlagSet

/-- The flag with the given name. -/
def Flag.ofLabel? {α : Type} [Flag α] (name : String) : Option α :=
  (Flag.all : List α).find? (Flag.label · == name)

end CrossAsm
