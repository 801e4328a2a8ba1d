import Clausal.Telescope

/-!
# Telescopes in dependency order

Solving an equation may leave an entry before one that its type mentions.
Sorting takes, time and again, the first entry that waits for no other, so
entries keep their order where their types allow it.
-/

namespace Clausal.Telescope

/-- An entry waits for no entry of `pending` but perhaps itself. -/
def isReady (pending : List Var) (entry : Var × Term) : Bool :=
  entry.2.freeVars.all fun v => v == entry.1 || !pending.contains v

/-- The first entry that waits for none of `pending`, and the others. -/
def takeReady? (pending : List Var) : Telescope → Option ((Var × Term) × Telescope)
  | [] => none
  | entry :: Γ =>
      if isReady pending entry then some (entry, Γ)
      else (takeReady? pending Γ).map fun (found, others) => (found, entry :: others)

/-- Sort at most `n` entries. -/
def sortUpTo? : (n : Nat) → Telescope → Option Telescope
  | _, [] => some []
  | 0, _ :: _ => none
  | n + 1, Γ =>
      match takeReady? (vars Γ) Γ with
      | some (entry, others) => (sortUpTo? n others).map (entry :: ·)
      | none => none

/-- The entries in an order in which each type mentions earlier entries only,
unless they depend on each other in a cycle. -/
def sort? (Γ : Telescope) : Option Telescope := sortUpTo? Γ.length Γ

end Clausal.Telescope
