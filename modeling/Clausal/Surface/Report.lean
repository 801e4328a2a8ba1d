import Clausal.Diagnostic
import Clausal.Surface.Parser

/-!
# Reports of reading faults
-/

namespace Clausal.Surface

/-- What could have stood at a place, as a note. -/
def expectedNotes (expected : List String) : List String :=
  match expected.getLast?, expected.dropLast with
  | none, _ => []
  | some last, [] => ["expected " ++ quoted last]
  | some last, init =>
      ["expected " ++ ", ".intercalate (init.map quoted) ++ " or " ++ quoted last]

def ParseError.diagnostic : ParseError → Diagnostic
  | .text (.stray span) => .error "unexpected character" [.here span]
  | .text (.unclosed depth firstOpen lastClose) =>
      .error "unclosed block comment"
        [.here firstOpen "first `/*`", .here lastClose "last `*/`"]
        [s!"Help: {depth} more `*/` needed"]
  | .unexpectedEnd span expected =>
      .error "unexpected end of file" [.here span "unexpected end of file"]
        (expectedNotes expected)
  | .unexpectedToken span token expected =>
      .error ("unexpected token " ++ token) [.here span "unexpected token"]
        (expectedNotes expected)
  | .extraToken span token =>
      .error ("extra token " ++ token) [.here span "extra token"]

end Clausal.Surface
