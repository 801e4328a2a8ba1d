import Clausal.Telescope

/-!
# The rule base

For every function, the rules that simplification may use and the elimination
principle that follows its clauses.  Who compiles a function claims its name
first, registers under that claim, and releases it; rules are only ever added
at the end.
-/

namespace Clausal

/-- An oriented equation over the variables of a context. -/
structure Rule where
  /-- The global that proves the equation. -/
  name : Name
  context : Telescope
  type : Term
  lhs : Term
  rhs : Term
deriving Repr, Inhabited

/-- The shape of a hypothesis of an elimination principle. -/
structure Hypothesis where
  /-- It belongs to an absurd case, and no proof uses it. -/
  absurd : Bool
  /-- How many variables of its case it takes. -/
  numParams : Nat
  /-- How many induction hypotheses it takes after them. -/
  numIhs : Nat
deriving DecidableEq, Repr, Inhabited

/-- What is known of an elimination principle. -/
structure Eliminator where
  /-- The global that proves the principle. -/
  name : Name
  function : Name
  /-- The number of arguments of the function. -/
  arity : Nat
  hypotheses : List Hypothesis
deriving Repr, Inhabited

structure RuleBase where
  rules : List (Name × List Rule) := []
  eliminators : List (Name × Eliminator) := []
  /-- Names that someone is compiling. -/
  claims : List Name := []
deriving Repr, Inhabited

/-- A name is claimed already. -/
structure AlreadyClaimed where
  name : Name
deriving DecidableEq, Repr

def AlreadyClaimed.message (e : AlreadyClaimed) : String :=
  "`" ++ e.name ++ "` is already being registered"

namespace RuleBase

def rulesOf (base : RuleBase) (name : Name) : List Rule :=
  ((base.rules.find? fun entry => entry.1 == name).map (·.2)).getD []

/-- The rules of several functions, function by function. -/
def rulesOfAll (base : RuleBase) (names : List Name) : List Rule :=
  names.flatMap base.rulesOf

def eliminator? (base : RuleBase) (function : Name) : Option Eliminator :=
  (base.eliminators.find? fun entry => entry.1 == function).map (·.2)

/-- Add rules after those that a function has. -/
def append (base : RuleBase) (name : Name) (rules : List Rule) : RuleBase :=
  if base.rules.any fun entry => entry.1 == name then
    { base with
      rules := base.rules.map fun entry =>
        if entry.1 == name then (name, entry.2 ++ rules) else entry }
  else
    { base with rules := base.rules ++ [(name, rules)] }

/-- Set the elimination principle of a function. -/
def setEliminator (base : RuleBase) (name : Name) (e : Eliminator) : RuleBase :=
  { base with
    eliminators := base.eliminators.filter (fun entry => entry.1 != name) ++ [(name, e)] }

/-- Claim a name, unless it is claimed already. -/
def claim (base : RuleBase) (name : Name) : Except AlreadyClaimed RuleBase :=
  if base.claims.contains name then .error ⟨name⟩
  else .ok { base with claims := name :: base.claims }

def release (base : RuleBase) (name : Name) : RuleBase :=
  { base with claims := base.claims.filter (· != name) }

def releaseAll (base : RuleBase) (names : List Name) : RuleBase :=
  names.foldl release base

end RuleBase
end Clausal
