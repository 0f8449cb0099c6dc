/-!
# CrossAsm — source spans

A span is a stretch of the source text, counted in bytes of its UTF-8 form.
-/

namespace CrossAsm

/-- A stretch of source text: the byte offset where it starts and its length in bytes. -/
structure Span where
  start : Nat
  length : Nat
deriving DecidableEq, Repr, Inhabited

namespace Span

/-- The empty span at the start of the text. -/
def zero : Span := ⟨0, 0⟩

/-- The offset just behind the span. -/
def stop (s : Span) : Nat := s.start + s.length

/-- The smallest span that covers both. -/
def hull (s t : Span) : Span :=
  let start := min s.start t.start
  ⟨start, max s.stop t.stop - start⟩

/-- The span from the start of the first to the end of the second. -/
def through (s t : Span) : Span := ⟨s.start, t.stop - s.start⟩

@[simp] theorem hull_self (s : Span) : s.hull s = s := by
  cases s
  simp only [hull, stop, Nat.min_self, Nat.max_self]
  congr 1
  omega

/-- A hull ends where the later of its parts ends. -/
theorem stop_hull (s t : Span) : (s.hull t).stop = max s.stop t.stop := by
  simp only [hull, stop]
  omega

end Span

end CrossAsm
