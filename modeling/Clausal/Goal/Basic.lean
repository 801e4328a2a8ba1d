import Clausal.Telescope

/-!
# Goals
-/

namespace Clausal

/-- A type to inhabit under hypotheses. -/
structure Goal where
  context : Telescope
  type : Term
deriving Repr, Inhabited

/-- The leading function types of a type as hypotheses. -/
def Goal.ofType (type : Term) : Goal :=
  let (context, type) := Telescope.ofType type
  { context, type }

end Clausal
