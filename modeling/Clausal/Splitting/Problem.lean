import Clausal.Splitting.Match

/-!
# Splitting problems

Splitting works on a problem: a context of variables, the goal, and the
arguments of the function in that context.  The first row that does not fail
to match decides.  If it matches, the problem is settled by it.  If it is
blocked on a variable, that variable is to be split on each of its possible
constructors, and the rows from this one on are tried again in every refined
problem.
-/

namespace Clausal

/-- A function whose rows are being split. -/
structure SplitTarget where
  name : Name
  span : Span
  rows : List Row
deriving Repr, Inhabited

structure Problem where
  context : Telescope
  goal : Term
  /-- The arguments of the function, in terms of the context. -/
  args : List Term
  /-- Names bound by enclosing clauses. -/
  locals : Surface.Locals
deriving Repr, Inhabited

/-- The problem in a refined context. -/
def Problem.refine (p : Problem) (r : Refinement) : Fresh Problem := do
  let goal ← r.subst.apply p.goal
  let args ← r.subst.applyAll p.args
  let locals ← p.locals.mapM fun entry => do
    let t ← r.subst.apply entry.2
    return (entry.1, t)
  return { context := r.context, goal, args, locals }

/-- What the rows of a problem decide. -/
inductive Decision where
  | reached (index : Nat) (row : Row) (locals : Surface.Locals) (forced : List Forced)
  /-- Split a variable for a pattern, and go on with the rows from there. -/
  | split (v : Var) (pattern : Pattern) (rows : List (Nat × Row))
  | failed (error : CompileError)
  | exhausted
deriving Repr

namespace Env

/-- The decision of the first row that does not fail to match. -/
def decideRows (env : Env) (p : Problem) : List (Nat × Row) → Eval Decision
  | [] => return .exhausted
  | (index, row) :: rows => do
      match ← env.matchRow row p.args p.locals with
      | .mismatch => decideRows env p rows
      | .matched locals forced => return .reached index row locals forced
      | .blocked v pattern => return .split v pattern ((index, row) :: rows)
      | .failed error => return .failed error

/-- The variable for a field: one named after the pattern's variable, if it is one. -/
def nameField (field : Var) : Pattern → Fresh Var
  | .var _ name => Var.fresh name
  | _ => return field

def nameAll : List Var → List Pattern → Fresh (List Var)
  | field :: fields, pattern :: patterns => do
      let named ← nameField field pattern
      let rest ← nameAll fields patterns
      return named :: rest
  | _, _ => return []

/-- The fields of a refinement, named after the variables of the pattern that
asked for it. -/
def nameFields (env : Env) (Γ : Telescope) (v : Var) (pattern : Pattern) (r : Refinement) :
    Check Refinement := do
  match pattern with
  | .ctor _ ctor args =>
      if ctor == r.ctor then
        let fields ← (nameAll r.fields args : Fresh (List Var))
        match ← env.refine Γ v ctor (some fields) with
        | .possible named => return named
        | .impossible _ => return r
      else
        return r
  | _ => return r

/-- The refinements of a context by the possible constructors of a variable. -/
def refinements (env : Env) (Γ : Telescope) (v : Var) (pattern : Pattern) :
    Check (List Refinement) := do
  let candidates ← env.constructors Γ v
  (candidates.filterMap (·.refinement?)).mapM fun r => env.nameFields Γ v pattern r

end Env

end Clausal
