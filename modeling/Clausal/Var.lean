import Clausal.Name

/-!
# Variables and the supply of fresh ones

Every binder has a variable of its own.  Variables are told apart by their
number; the name is kept for printing.  A supply hands out numbers in turn, so
a variable taken from it differs from all that were taken before.
-/

namespace Clausal

structure Var where
  id : Nat
  name : Name
deriving DecidableEq, Repr, Inhabited

/-- Computations that take fresh variables.  The state is the next number. -/
abbrev Fresh := StateM Nat

namespace Var

/-- A variable that differs from every variable taken so far. -/
def fresh (name : Name) : Fresh Var := fun next => (⟨next, name⟩, next + 1)

/-- A fresh variable of the same name. -/
def refresh (v : Var) : Fresh Var := fresh v.name

/-- Fresh variables of the same names. -/
def refreshAll : List Var → Fresh (List Var)
  | [] => return []
  | v :: vs => do
      let w ← v.refresh
      let ws ← refreshAll vs
      return w :: ws

end Var

/-- Computations that take fresh variables and may run out of fuel. -/
abbrev Eval := StateT Nat Option

/-- The outcome of a computation whose fuel did not suffice. -/
def outOfFuel {α : Type} : Eval α := fun _ => none

instance : MonadLift Fresh Eval := ⟨fun x next => some (x next)⟩

end Clausal
