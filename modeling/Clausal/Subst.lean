import Clausal.Telescope

/-!
# Substitution

Simultaneous substitution of terms for variables.  Every binder that a
substitution passes is renamed to a fresh variable, so nothing is captured.
The empty substitution passes no binder: it leaves a term as it is.
-/

namespace Clausal

/-- Values of variables.  The first value given for a variable counts. -/
abbrev Assignment := List (Var × Term)

namespace Assignment

def get? (σ : Assignment) (v : Var) : Option Term :=
  (σ.find? fun entry => entry.1 == v).map (·.2)

/-- Give variables other variables as values; of repeated ones the last counts. -/
def bind (vs ws : List Var) (σ : Assignment) : Assignment :=
  (vs.zip (ws.map Term.var)).reverse ++ σ

end Assignment

mutual

/-- Replace variables by their values, renaming every binder on the way. -/
def Term.assign (σ : Assignment) : Term → Fresh Term
  | .univ => return .univ
  | .var v => return (σ.get? v).getD (.var v)
  | .global name => return .global name
  | .pi v dom cod => do
      let dom ← dom.assign σ
      let w ← v.refresh
      let cod ← cod.assign (σ.bind [v] [w])
      return .pi w dom cod
  | .lam v dom body => do
      let dom ← dom.assign σ
      let w ← v.refresh
      let body ← body.assign (σ.bind [v] [w])
      return .lam w dom body
  | .app head arg => do
      let head ← head.assign σ
      let arg ← arg.assign σ
      return .app head arg
  | .ann term type => do
      let term ← term.assign σ
      let type ← type.assign σ
      return .ann term type
  | .case scrut branches => do
      let scrut ← scrut.assign σ
      let branches ← branches.assign σ
      return .case scrut branches
  | .absurd scrut => do
      let scrut ← scrut.assign σ
      return .absurd scrut

def Branches.assign (σ : Assignment) : Branches → Fresh Branches
  | .nil => return .nil
  | .cons ctor fields body rest => do
      let renamed ← Var.refreshAll fields
      let body ← body.assign (σ.bind fields renamed)
      let rest ← rest.assign σ
      return .cons ctor renamed body rest

end

/-- A substitution: at most one value for each variable. -/
structure Subst where
  entries : Assignment := []
deriving Repr, Inhabited

namespace Subst

def empty : Subst := {}

def isEmpty (σ : Subst) : Bool := σ.entries.isEmpty

def size (σ : Subst) : Nat := σ.entries.length

def get? (σ : Subst) (v : Var) : Option Term := σ.entries.get? v

def contains (σ : Subst) (v : Var) : Bool := (σ.get? v).isSome

/-- Set the value of a variable and leave all other values as they are. -/
def put (σ : Subst) (v : Var) (t : Term) : Subst :=
  if σ.contains v then
    ⟨σ.entries.map fun entry => if entry.1 == v then (v, t) else entry⟩
  else
    ⟨σ.entries ++ [(v, t)]⟩

def single (v : Var) (t : Term) : Subst := ⟨[(v, t)]⟩

/-- The substitution of pairs; of repeated variables the last counts. -/
def ofPairs (pairs : List (Var × Term)) : Subst :=
  pairs.foldl (fun σ entry => σ.put entry.1 entry.2) empty

/-- Apply a substitution to a term. -/
def apply (σ : Subst) (t : Term) : Fresh Term :=
  if σ.isEmpty then return t else t.assign σ.entries

def applyAll (σ : Subst) (ts : List Term) : Fresh (List Term) := ts.mapM σ.apply

/-- Apply a substitution to the values of some variables. -/
def applyEntries (σ : Subst) (entries : List (Var × Term)) : Fresh (List (Var × Term)) :=
  entries.mapM fun entry => do
    let t ← σ.apply entry.2
    return (entry.1, t)

/-- The telescope that is left when the variables of a substitution are
replaced by their values. -/
def applyTelescope (σ : Subst) (Γ : Telescope) : Fresh Telescope :=
  σ.applyEntries (Γ.filter fun entry => !σ.contains entry.1)

/-- Add a value that is expressed in the variables left by `σ`; the values of
`σ` are expressed in what is left then. -/
def insert (σ : Subst) (v : Var) (t : Term) : Fresh Subst := do
  let entries ← (single v t).applyEntries σ.entries
  return (⟨entries⟩ : Subst).put v t

/-- First `σ`, then `τ`. -/
def compose (σ τ : Subst) : Fresh Subst := do
  let entries ← τ.applyEntries σ.entries
  return ⟨entries ++ τ.entries.filter fun entry => !σ.contains entry.1⟩

end Subst

/-- Rename the free occurrences of a variable. -/
def Term.rename (t : Term) (v w : Var) : Fresh Term :=
  if v = w then return t else (Subst.single v (.var w)).apply t

end Clausal
