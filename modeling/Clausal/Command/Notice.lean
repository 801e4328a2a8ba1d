import Clausal.Diagnostic
import Clausal.Text.Sources

/-!
# Notices

A diagnostic together with the source that its labels point into.
-/

namespace Clausal.Command

structure Notice where
  source : Option Text.Source := none
  diagnostic : Diagnostic
deriving Repr

namespace Notice

/-- The severity and the first line of the message. -/
def headline (n : Notice) : String :=
  n.diagnostic.severity.text ++ ": " ++ (n.diagnostic.message.splitOn "\n").headD ""

/-- The place of a notice as `name:line:column`. -/
def location? (n : Notice) : Option String := do
  let source ← n.source
  let span ← n.diagnostic.place?
  let place := Text.location source.text span.start
  return s!"{source.name}:{place.line}:{place.column}"

end Notice
end Clausal.Command
