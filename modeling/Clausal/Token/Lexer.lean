import Clausal.Text.Blank
import Clausal.Token.Basic

/-!
# Cutting a text into lexemes

A text is cut from the left into lexemes, each as long as possible: tokens,
blanks and comments, characters that start nothing, and a block comment that
is never closed.  Every character belongs to exactly one lexeme, so the spans
of the lexemes tile the text.
-/

namespace Clausal

/-- What a stretch of text is. -/
inductive Lexeme where
  | token (t : Token)
  /-- A blank or a comment. -/
  | gap
  /-- A character that starts no token. -/
  | stray
  /-- A block comment that runs to the end of the text: how many closing marks
  it lacks, and how many bytes after its start its last closing mark stands. -/
  | unclosed (depth lastClose : Nat)
deriving DecidableEq, Repr

namespace Lexeme

def isNameStart (c : Char) : Bool := c.isAlpha || c == '_'

def isNameChar (c : Char) : Bool := c.isAlphanum || c == '_' || c == '\''

/-- The longest continuation of a name.  A full stop belongs to the name when
another part of the name follows it. -/
def nameTail : List Char → List Char
  | [] => []
  | [c] => if isNameChar c then [c] else []
  | c :: d :: cs =>
      if isNameChar c then c :: nameTail (d :: cs)
      else if c == '.' && isNameStart d then c :: d :: nameTail cs
      else []

/-- A whole word is a keyword, a lone underscore, or a name. -/
def word (text : String) : Token :=
  if text == Name.underscore then .mark .underscore
  else match Keyword.ofText? text with
    | some k => .keyword k
    | none => .name text

/-- Follow a block comment that has `depth + 1` unclosed openings.  `taken`
characters and `width` bytes of it have been read, and its last closing mark
stood at `lastClose`. -/
def block : List Char → (depth taken width lastClose : Nat) → Lexeme × Nat
  | '/' :: '*' :: cs, depth, taken, width, lastClose =>
      block cs (depth + 1) (taken + 2) (width + 2) lastClose
  | '*' :: '/' :: cs, depth, taken, width, _ =>
      match depth with
      | 0 => (.gap, taken + 2)
      | depth + 1 => block cs depth (taken + 2) (width + 2) width
  | c :: cs, depth, taken, width, lastClose =>
      block cs depth (taken + 1) (width + c.utf8Size) lastClose
  | [], depth, taken, _, lastClose => (.unclosed (depth + 1) lastClose, taken)

/-- The mark at the front of a text, and how many characters it takes after
the first. -/
def markAt? : Char → List Char → Option (Mark × Nat)
  | ':', _ => some (.colon, 0)
  | ',', _ => some (.comma, 0)
  | '=', '>' :: _ => some (.fatArrow, 1)
  | '.', _ => some (.fullStop, 0)
  | '-', '>' :: _ => some (.arrow, 1)
  | '|', _ => some (.pipe, 0)
  | ';', _ => some (.semicolon, 0)
  | '\x7b', _ => some (.openBrace, 0)
  | '\x7d', _ => some (.closeBrace, 0)
  | '[', _ => some (.openBracket, 0)
  | ']', _ => some (.closeBracket, 0)
  | '(', _ => some (.openParen, 0)
  | ')', _ => some (.closeParen, 0)
  | _, _ => none

/-- The lexeme at the front of a text, and how many characters it takes after
the first. -/
def scan (c : Char) (cs : List Char) : Lexeme × Nat :=
  if Text.isBlank c then (.gap, 0)
  else if isNameStart c then
    let tail := nameTail cs
    (.token (word (String.ofList (c :: tail))), tail.length)
  else match c, cs with
    | '/', '/' :: rest => (.gap, 1 + (rest.takeWhile (· != '\n')).length)
    | '/', '*' :: rest => block rest 0 1 2 0
    | _, _ =>
        match markAt? c cs with
        | some (m, n) => (.token (.mark m), n)
        | none => (.stray, 0)

end Lexeme

/-- A lexeme and the bytes it covers. -/
structure LexemeAt where
  lexeme : Lexeme
  span : Span
deriving DecidableEq, Repr

namespace LexemeAt

/-- The number of bytes of some characters. -/
def width (cs : List Char) : Nat := cs.foldr (fun c n => c.utf8Size + n) 0

/-- The lexemes of a text that starts at an offset. -/
def cut (offset : Nat) : List Char → List LexemeAt
  | [] => []
  | c :: cs =>
      let (lexeme, more) := Lexeme.scan c cs
      let next := offset + width (c :: cs.take more)
      ⟨lexeme, offset, next⟩ :: cut next (cs.drop more)
termination_by cs => cs.length
decreasing_by
  simp only [List.length_drop, List.length_cons]
  omega

end LexemeAt

/-- Faults in the text itself. -/
inductive LexError where
  | stray (span : Span)
  | unclosed (depth : Nat) (firstOpen lastClose : Span)
deriving DecidableEq, Repr

/-- Where a fault is reported. -/
def LexError.span : LexError → Span
  | .stray span => span
  | .unclosed _ firstOpen _ => firstOpen

namespace LexemeAt

def token? (piece : LexemeAt) : Option TokenAt :=
  match piece.lexeme with
  | .token t => some ⟨t, piece.span⟩
  | _ => none

/-- Comment marks take two bytes. -/
def error? (piece : LexemeAt) : Option LexError :=
  match piece.lexeme with
  | .stray => some (.stray piece.span)
  | .unclosed depth lastClose =>
      let start := piece.span.start
      some (.unclosed depth ⟨start, start + 2⟩ ⟨start + lastClose, start + lastClose + 2⟩)
  | _ => none

/-- The lexemes of a text. -/
def ofText (text : String) : List LexemeAt := cut 0 text.toList

end LexemeAt
end Clausal
