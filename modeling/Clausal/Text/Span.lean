/-!
# Spans of source text

Everything the reader produces is tagged with the bytes it came from.  A span
is a half-open range of byte offsets into the UTF-8 encoding of a text.
-/

namespace Clausal

/-- A half-open range of byte offsets. -/
structure Span where
  start : Nat
  stop : Nat
deriving DecidableEq, Repr, Inhabited

namespace Span

/-- The least span that covers two spans. -/
def merge (a b : Span) : Span :=
  ⟨min a.start b.start, max a.stop b.stop⟩

/-- The span of no bytes at an offset. -/
def point (offset : Nat) : Span := ⟨offset, offset⟩

end Span
end Clausal
