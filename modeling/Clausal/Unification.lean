import Clausal.Conversion
import Clausal.Telescope.Order

/-!
# Unification of indices

Splitting a variable on a constructor requires that the indices of its type
and those of the constructor's type agree.  All variables of the context may
be solved; a solved variable leaves the context.

* an equation of a variable with itself, or of convertible terms, is dropped;
* a variable is solved by a term in which it does not occur;
* equal constructors are taken off both sides;
* different constructors, and a variable inside a constructor form that it
  should equal, can never agree.
-/

namespace Clausal

abbrev Constraint := Term × Term

/-- Solutions in terms of the variables that remain. -/
structure Unifier where
  context : Telescope
  subst : Subst
deriving Repr, Inhabited

inductive Unified where
  | success (unifier : Unifier)
  /-- The equations can never hold. -/
  | conflict
deriving Repr, Inhabited

/-- Why equations are neither solved nor refuted. -/
inductive UnifyError where
  /-- Neither side is a variable or of constructor form. -/
  | stuck (lhs rhs : Term)
  /-- A variable occurs in its solution, but not under constructors. -/
  | occurs (v : Var) (term : Term)
  /-- The solved context has no dependency order. -/
  | illScoped
deriving Repr, Inhabited

/-- What a single equation between reduced terms asks for. -/
inductive Demand where
  | nothing
  | solve (v : Var) (term : Term)
  | parts (equations : List Constraint)
  | impossible
  | unclear
deriving Repr

namespace Unify

/-- A variable of the context that may be solved. -/
def flexible? (Γ : Telescope) (t : Term) : Option Var :=
  t.var?.filter fun v => Telescope.contains Γ v

/-- Of two variables the one bound later is solved. -/
def solveLater (Γ : Telescope) (v w : Var) : Demand :=
  match Telescope.position? Γ v, Telescope.position? Γ w with
  | some i, some j => if j < i then .solve v (.var w) else .solve w (.var v)
  | _, _ => .solve w (.var v)

/-- Compare two terms that are no variables of the context. -/
def compareRigid (env : Env) (lhs rhs : Term) : Eval Demand := do
  if ← env.convertible lhs rhs then
    return .nothing
  else
    match env.ctorSpine? lhs, env.ctorSpine? rhs with
    | some (_, args), some (_, args') =>
        if lhs.spine.1 = rhs.spine.1 ∧ args.length = args'.length then
          return .parts (args.zip args')
        else return .impossible
    | _, _ => return .unclear

/-- What an equation between reduced terms asks for. -/
def demand (env : Env) (Γ : Telescope) (lhs rhs : Term) : Eval Demand :=
  match flexible? Γ lhs, flexible? Γ rhs with
  | some v, some w => return if v = w then .nothing else solveLater Γ v w
  | some v, none => return .solve v rhs
  | none, some w => return .solve w lhs
  | none, none => compareRigid env lhs rhs

/-- Solve a variable: it leaves the context, and the substitution gains its value. -/
def solve (Γ : Telescope) (σ : Subst) (v : Var) (t : Term) : Fresh (Option Unifier) := do
  let Γ ← (Subst.single v t).applyTelescope Γ
  match Telescope.sort? Γ with
  | some Γ =>
      let σ ← σ.insert v t
      return some ⟨Γ, σ⟩
  | none => return none

/-- Work off equations from the front. -/
def run (env : Env) : (fuel : Nat) → Unifier → List Constraint → Eval (Except UnifyError Unified)
  | 0, _, _ => outOfFuel
  | _ + 1, state, [] => return .ok (.success state)
  | fuel + 1, state, (lhs, rhs) :: queue => do
      let lhs ← state.subst.apply lhs
      let lhs ← env.whnf lhs
      let rhs ← state.subst.apply rhs
      let rhs ← env.whnf rhs
      match ← demand env state.context lhs rhs with
      | .nothing => run env fuel state queue
      | .parts equations => run env fuel state (equations ++ queue)
      | .impossible => return .ok .conflict
      | .unclear => return .error (.stuck lhs rhs)
      | .solve v t =>
          if t.occurs v then
            if (env.ctorSpine? t).isSome then return .ok .conflict
            else return .error (.occurs v t)
          else
            match ← solve state.context state.subst v t with
            | some state => run env fuel state queue
            | none => return .error .illScoped

end Unify

/-- Solve equations over a context, from left to right. -/
def unify (env : Env) (Γ : Telescope) (equations : List Constraint) :
    Eval (Except UnifyError Unified) :=
  Unify.run env env.fuel ⟨Γ, .empty⟩ equations

end Clausal
