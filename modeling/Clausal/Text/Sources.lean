import Clausal.Text.Lines

/-!
# Loaded sources

The texts a run works on, each under the name it was loaded from.  Sources
are numbered from one in the order they were added.
-/

namespace Clausal.Text

structure Source where
  name : String
  text : String
deriving DecidableEq, Repr, Inhabited

/-- Why a question about a source has no answer. -/
inductive SourceError where
  | zeroNumber
  | missing
  | line (error : LineOutOfRange)
deriving DecidableEq, Repr

def SourceError.message : SourceError → String
  | .zeroNumber => "number would be zero for non-zero type"
  | .missing => "file missing"
  | .line error => error.message

/-- The sources of a run, in the order they were added. -/
structure Sources where
  files : List Source := []
deriving Repr, Inhabited

namespace Sources

/-- Add a source; its number is one more than the number of sources before it. -/
def add (sources : Sources) (source : Source) : Nat × Sources :=
  (sources.files.length + 1, ⟨sources.files ++ [source]⟩)

/-- The source of a given number. -/
def get (sources : Sources) : Nat → Except SourceError Source
  | 0 => .error .zeroNumber
  | n + 1 =>
      match sources.files[n]? with
      | some source => .ok source
      | none => .error .missing

/-- The bytes of a line of a source. -/
def lineSpan (sources : Sources) (number line : Nat) : Except SourceError Span := do
  let source ← sources.get number
  match Text.lineSpan source.text line with
  | .ok span => .ok span
  | .error error => .error (.line error)

end Sources
end Clausal.Text
