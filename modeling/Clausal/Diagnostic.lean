import Clausal.Text.Span

/-!
# Diagnostics

What is reported about a source: a message, the places it speaks about, and
notes.  Labels and notes keep the order in which they were given.
-/

namespace Clausal

inductive Severity where
  | warning
  | error
  /-- A fault of the program itself. -/
  | bug
deriving DecidableEq, Repr

namespace Severity

def text : Severity → String
  | .warning => "warning"
  | .error => "error"
  | .bug => "bug"

/-- Whether a report of this severity makes a run fail. -/
def isError : Severity → Bool
  | .warning => false
  | .error | .bug => true

end Severity

/-- A place and what is to be said about it. -/
structure Label where
  primary : Bool
  span : Span
  message : String := ""
deriving DecidableEq, Repr

namespace Label

def here (span : Span) (message : String := "") : Label := ⟨true, span, message⟩

def related (span : Span) (message : String := "") : Label := ⟨false, span, message⟩

end Label

structure Diagnostic where
  severity : Severity
  message : String
  labels : List Label := []
  notes : List String := []
deriving DecidableEq, Repr

namespace Diagnostic

def error (message : String) (labels : List Label := []) (notes : List String := []) :
    Diagnostic :=
  ⟨.error, message, labels, notes⟩

def bug (message : String) (labels : List Label := []) (notes : List String := []) :
    Diagnostic :=
  ⟨.bug, message, labels, notes⟩

/-- The place a diagnostic is about: the primary label that starts first. -/
def place? (d : Diagnostic) : Option Span :=
  match (d.labels.filter (·.primary)).map (·.span) with
  | [] => none
  | first :: rest =>
      some (rest.foldl (fun best next => if next.start < best.start then next else best) first)

/-- The note that asks for a report of a fault of the program. -/
def bugReportNote : String := "please file a bug report"

end Diagnostic

/-- A name in a message. -/
def quoted (name : String) : String := "`" ++ name ++ "`"

end Clausal
