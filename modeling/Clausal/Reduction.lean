import Clausal.Signature
import Clausal.Subst

/-!
# Reduction

Weak-head reduction: application of literals, case splits on constructors,
erasure of annotations, and unfolding of functions that may be unfolded.  A
function stays folded while its unfolding is stuck on a case split or lacks
arguments.

Reduction need not end, so it takes fuel; running out of it is an outcome of
its own.
-/

namespace Clausal

/-- What reduction depends on. -/
structure Env where
  sig : Signature
  /-- Functions that may be unfolded although they are not transparent. -/
  unfold : List Name := []
  /-- The depth that every computation may reach. -/
  fuel : Nat := 1000000
deriving Repr, Inhabited

namespace Env

def ctor? (env : Env) (name : Name) : Option Ctor := env.sig.ctor? name

/-- A constructor at the head of a term, and its arguments. -/
def ctorSpine? (env : Env) (t : Term) : Option (Ctor × List Term) :=
  match t.globalSpine? with
  | some (name, args) => (env.ctor? name).map fun ctor => (ctor, args)
  | none => none

/-- The substitution that a case split makes on a scrutinee of constructor
form, and the body it applies to. -/
def matchBranch? (env : Env) (scrut : Term) (branches : Branches) : Option (Subst × Term) := do
  let (ctor, args) ← env.ctorSpine? scrut
  let branch ← branches.find? ctor.name
  if ctor.numParams ≤ args.length ∧ (args.drop ctor.numParams).length = branch.fields.length then
    some (.ofPairs (branch.fields.zip (args.drop ctor.numParams)), branch.body)
  else
    none

/-- Whether the head of a term is a case split or a literal. -/
def isStuck (t : Term) : Bool :=
  match t.spine.1 with
  | .case _ _ | .lam _ _ _ => true
  | _ => false

mutual

/-- Weak-head reduction to a given depth. -/
def whnfWith (env : Env) : (fuel : Nat) → Term → Eval Term
  | 0, _ => outOfFuel
  | fuel + 1, t =>
      match t with
      | .ann t _ => whnfWith env fuel t
      | .app _ _ | .global _ =>
          let (head, args) := t.spine
          whnfSpine env fuel head args
      | .case scrut branches => do
          match ← reduceCase env fuel scrut branches with
          | some t => whnfWith env fuel t
          | none => return t
      | t => return t

/-- Weak-head reduction of a head applied to arguments. -/
def whnfSpine (env : Env) : (fuel : Nat) → Term → List Term → Eval Term
  | 0, _, _ => outOfFuel
  | fuel + 1, head, args =>
      match head, args with
      | .ann t _, args => whnfSpine env fuel t args
      | .app _ _, args =>
          let (inner, args) := head.spineOnto args
          whnfSpine env fuel inner args
      | .lam v _ body, arg :: args => do
          let body ← (Subst.single v arg).apply body
          whnfSpine env fuel body args
      | .case scrut branches, args => do
          match ← reduceCase env fuel scrut branches with
          | some t => whnfSpine env fuel t args
          | none => return head.apps args
      | .global name, args =>
          match env.sig.unfoldable? env.unfold name with
          | some body => do
              let unfolded ← whnfSpine env fuel body args
              if isStuck unfolded then return head.apps args else return unfolded
          | none => return head.apps args
      | head, args => return head.apps args

/-- The body of the branch that a case split selects, if its scrutinee reduces
to constructor form. -/
def reduceCase (env : Env) : (fuel : Nat) → Term → Branches → Eval (Option Term)
  | 0, _, _ => outOfFuel
  | fuel + 1, scrut, branches => do
      let scrut ← whnfWith env fuel scrut
      match env.matchBranch? scrut branches with
      | some (σ, body) => return some (← σ.apply body)
      | none => return none

end

/-- The weak-head normal form of a term. -/
def whnf (env : Env) (t : Term) : Eval Term := whnfWith env env.fuel t

mutual

/-- Full reduction to a given depth. -/
def normaliseWith (env : Env) : (fuel : Nat) → Term → Eval Term
  | 0, _ => outOfFuel
  | fuel + 1, t => do
      match ← env.whnf t with
      | .pi v dom cod =>
          let dom ← normaliseWith env fuel dom
          let cod ← normaliseWith env fuel cod
          return .pi v dom cod
      | .lam v dom body =>
          let dom ← normaliseWith env fuel dom
          let body ← normaliseWith env fuel body
          return .lam v dom body
      | .app head arg =>
          let head ← normaliseWith env fuel head
          let arg ← normaliseWith env fuel arg
          return .app head arg
      | .ann t _ => normaliseWith env fuel t
      | .case scrut branches =>
          let scrut ← normaliseWith env fuel scrut
          let branches ← normaliseBranches env fuel branches
          return .case scrut branches
      | .absurd scrut =>
          let scrut ← normaliseWith env fuel scrut
          return .absurd scrut
      | t => return t

def normaliseBranches (env : Env) : (fuel : Nat) → Branches → Eval Branches
  | 0, _ => outOfFuel
  | _ + 1, .nil => return .nil
  | fuel + 1, .cons ctor fields body rest => do
      let body ← normaliseWith env fuel body
      let rest ← normaliseBranches env fuel rest
      return .cons ctor fields body rest

end

/-- Reduce a term everywhere, also under binders. -/
def normalise (env : Env) (t : Term) : Eval Term := normaliseWith env env.fuel t

/-- The function types that a type reduces to, to a given depth, and what is left. -/
def telescopeWith (env : Env) : (fuel : Nat) → Term → Eval (Telescope × Term)
  | 0, _ => outOfFuel
  | fuel + 1, type => do
      match ← env.whnf type with
      | .pi v dom cod =>
          let (Γ, body) ← telescopeWith env fuel cod
          return ((v, dom) :: Γ, body)
      | type => return ([], type)

/-- The function types that a type reduces to, and what is left. -/
def telescope (env : Env) (type : Term) : Eval (Telescope × Term) :=
  telescopeWith env env.fuel type

/-- The type of a function of the given type once it is applied to arguments. -/
def instantiate (env : Env) : Term → List Term → Eval (Option Term)
  | type, [] => return some type
  | type, arg :: args => do
      match ← env.whnf type with
      | .pi v _ cod =>
          let cod ← (Subst.single v arg).apply cod
          instantiate env cod args
      | _ => return none

end Env
end Clausal
