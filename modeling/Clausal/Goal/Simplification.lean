import Clausal.Conversion
import Clausal.Goal.Basic
import Clausal.Goal.Contraction

/-!
# Simplification of goals

A goal is reduced and contracted in turn until no rule applies.  Rules may go
on forever, so their number is bounded.
-/

namespace Clausal

/-- How many contractions a simplification makes at most. -/
def maxContractions : Nat := 1000

/-- A simplified goal. -/
structure Simplified where
  goal : Goal
  /-- It is an equation between convertible terms. -/
  closed : Bool
deriving Repr, Inhabited

namespace Env

/-- Contract a reduced term and reduce it again, at most `steps` times. -/
def contractAll (env : Env) (rules : List Rule) : (steps : Nat) → Term → Eval Term
  | 0, t => return t
  | steps + 1, t => do
      match ← (t.contract? rules : Fresh (Option Term)) with
      | some t =>
          let t ← env.normalise t
          contractAll env rules steps t
      | none => return t

/-- Whether a type is an equation between convertible terms. -/
def isTrivial (env : Env) (type : Term) : Eval Bool :=
  match type.globalSpine? with
  | some (head, [_, lhs, rhs]) =>
      if head == Term.eqName then env.convertible lhs rhs else return false
  | _ => return false

end Env

/-- Simplify a goal with the rules of some functions. -/
def Goal.simplify (base : RuleBase) (sig : Signature) (goal : Goal) (names : List Name) :
    Eval Simplified := do
  let env : Env := { sig }
  let type ← env.normalise goal.type
  let type ← env.contractAll (base.rulesOfAll names) maxContractions type
  let closed ← env.isTrivial type
  return { goal := { goal with type }, closed }

end Clausal
