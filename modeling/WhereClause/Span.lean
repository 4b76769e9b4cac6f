/-!
# Spans

A span is a half-open range of byte offsets into a clause. Spans only ever grow by merging, and the
merge is the smallest range that covers both sides.
-/

namespace WhereClause

/-- The bytes `start ≤ i < stop` of a clause. -/
structure Span where
  /-- Offset of the first byte. -/
  start : Nat := 0
  /-- Offset just after the last byte. -/
  stop : Nat := 0
deriving DecidableEq, Repr, Inhabited

namespace Span

/-- The empty span that stands at `offset`. -/
def point (offset : Nat) : Span :=
  ⟨offset, offset⟩

/-- The number of bytes covered. -/
def size (s : Span) : Nat :=
  s.stop - s.start

/-- Whether no byte is covered. -/
def isEmpty (s : Span) : Bool :=
  s.start == s.stop

/-- The smallest span that covers both `s` and `t`. -/
def merge (s t : Span) : Span :=
  ⟨min s.start t.start, max s.stop t.stop⟩

/-- The text `start..stop`. -/
def render (s : Span) : String :=
  s.start.repr ++ ".." ++ s.stop.repr

end Span

end WhereClause
