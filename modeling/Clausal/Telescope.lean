import Clausal.Term.Basic

/-!
# Telescopes

A list of typed variables, where each type may refer to the variables before
it.  Telescopes are the contexts of open terms and the parameters of
functions.
-/

namespace Clausal

abbrev Telescope := List (Var × Term)

namespace Telescope

def vars (Γ : Telescope) : List Var := Γ.map (·.1)

/-- The variables as arguments. -/
def args (Γ : Telescope) : List Term := Γ.map fun entry => .var entry.1

/-- The type of a variable, by its last entry. -/
def type? (Γ : Telescope) (v : Var) : Option Term :=
  (Γ.reverse.find? fun entry => entry.1 == v).map (·.2)

/-- The place of a variable, by its first entry. -/
def position? (Γ : Telescope) (v : Var) : Option Nat :=
  Γ.findIdx? fun entry => entry.1 == v

def contains (Γ : Telescope) (v : Var) : Bool := Γ.any fun entry => entry.1 == v

/-- The function type from the entries to `body`. -/
def pis (Γ : Telescope) (body : Term) : Term :=
  Γ.foldr (fun entry acc => .pi entry.1 entry.2 acc) body

/-- The function of the entries with the given body. -/
def lams (Γ : Telescope) (body : Term) : Term :=
  Γ.foldr (fun entry acc => .lam entry.1 entry.2 acc) body

/-- The leading function types of a type as it is written, and what is left. -/
def ofType : Term → Telescope × Term
  | .pi v dom cod =>
      let (Γ, body) := ofType cod
      ((v, dom) :: Γ, body)
  | type => ([], type)

/-- At most `n` leading function types of a type as it is written. -/
def ofTypeUpTo : Nat → Term → Telescope × Term
  | n + 1, .pi v dom cod =>
      let (Γ, body) := ofTypeUpTo n cod
      ((v, dom) :: Γ, body)
  | _, type => ([], type)

end Telescope
end Clausal
