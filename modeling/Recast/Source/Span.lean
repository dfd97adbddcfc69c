-- SUMMARY: Half-open byte ranges of a source text.

/-! # Spans

A span says where a token or a node stood in the text it was read from: from the byte `start` up
to, and without, the byte `stop`. Trivia around a token lies outside its span. -/

namespace Recast

/-- A half-open range of byte offsets. -/
structure Span where
  start : Nat
  stop : Nat
  deriving DecidableEq, Repr

namespace Span

/-- The number of bytes in the span. -/
def size (s : Span) : Nat :=
  s.stop - s.start

/-- A span without bytes. -/
def isEmpty (s : Span) : Bool :=
  s.start == s.stop

/-- True when `inner` lies inside `outer`. -/
def contains (outer inner : Span) : Bool :=
  decide (outer.start ≤ inner.start) && decide (inner.stop ≤ outer.stop)

/-- The least span around two spans. -/
def cover (s t : Span) : Span :=
  ⟨min s.start t.start, max s.stop t.stop⟩

/-- Spans are ordered by where they start, and then by where they stop. -/
def before (s t : Span) : Bool :=
  decide (s.start < t.start) || (s.start == t.start && decide (s.stop < t.stop))

/-- The span as written in messages. -/
def render (s : Span) : String :=
  s!"[{s.start}..{s.stop})"

theorem contains_iff {outer inner : Span} :
    outer.contains inner = true ↔ outer.start ≤ inner.start ∧ inner.stop ≤ outer.stop := by
  simp [contains]

theorem contains_cover_left (s t : Span) : (s.cover t).contains s = true := by
  simp only [contains_iff, cover]
  omega

theorem contains_cover_right (s t : Span) : (s.cover t).contains t = true := by
  simp only [contains_iff, cover]
  omega

end Span

end Recast
