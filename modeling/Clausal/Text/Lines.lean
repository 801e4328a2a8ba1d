import Clausal.Text.Span

/-!
# Lines and columns

A text is cut into lines after every line feed.  Positions are byte offsets;
a location is a line and a column, both counted from one, where the column
counts characters.
-/

namespace Clausal.Text

/-- A line number past the end of a text. -/
structure LineOutOfRange where
  given : Nat
  last : Nat
deriving DecidableEq, Repr

def LineOutOfRange.message (e : LineOutOfRange) : String :=
  s!"invalid line {e.given}, maximum line is {e.last}"

/-- The offset after each character, from the offset of the first one. -/
def offsetsAfter : List Char → Nat → List Nat
  | [], _ => []
  | c :: cs, offset => (offset + c.utf8Size) :: offsetsAfter cs (offset + c.utf8Size)

/-- The offsets just after each line feed. -/
def offsetsAfterLineFeeds : List Char → Nat → List Nat
  | [], _ => []
  | c :: cs, offset =>
      let next := offset + c.utf8Size
      if c = '\n' then next :: offsetsAfterLineFeeds cs next else offsetsAfterLineFeeds cs next

/-- The offsets at which lines start: the beginning, and after every line feed. -/
def lineStarts (text : String) : List Nat :=
  0 :: offsetsAfterLineFeeds text.toList 0

/-- The index of the last line that starts at or before an offset. -/
def lineIndex (text : String) (offset : Nat) : Nat :=
  ((lineStarts text).takeWhile (· ≤ offset)).length - 1

/-- The start of a line; the line after the last one starts at the end of the text. -/
def lineStart (text : String) (line : Nat) : Except LineOutOfRange Nat :=
  let starts := lineStarts text
  match starts[line]? with
  | some start => .ok start
  | none =>
      if line = starts.length then .ok text.utf8ByteSize
      else .error ⟨line, starts.length - 1⟩

/-- The bytes of a line, its line feed included. -/
def lineSpan (text : String) (line : Nat) : Except LineOutOfRange Span := do
  let start ← lineStart text line
  let stop ← lineStart text (line + 1)
  return ⟨start, stop⟩

/-- A line and a column, both counted from one. -/
structure Location where
  line : Nat
  column : Nat
deriving DecidableEq, Repr

/-- The location of an offset.  The column counts the characters of the line
that end at or before the offset, so an offset inside a character stands for
its start and one past the end for the end. -/
def location (text : String) (offset : Nat) : Location :=
  let line := lineIndex text offset
  match lineSpan text line with
  | .ok span =>
      let stop := min offset span.stop
      let ends := (offsetsAfter text.toList 0).filter fun p => span.start < p && p ≤ stop
      ⟨line + 1, ends.length + 1⟩
  | .error _ => ⟨line + 1, 1⟩

end Clausal.Text
