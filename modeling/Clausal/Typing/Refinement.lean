import Clausal.Typing.Error

/-!
# Splitting a variable on its constructors

For a variable of a family, every constructor is either impossible, because
its indices can never agree with those of the variable's type, or it refines
the context: the variable is replaced by the constructor applied to fields,
and what the indices force is substituted everywhere.
-/

namespace Clausal

/-- Type checking takes fresh variables, may fail and may run out of fuel. -/
abbrev Check := ExceptT TypeError Eval

/-- Type checking whose fuel did not suffice. -/
def Check.outOfFuel {α : Type} : Check α := ExceptT.mk Clausal.outOfFuel

/-- A context refined by splitting a variable on a constructor. -/
structure Refinement where
  ctor : Name
  /-- The fields of the constructor in their order. -/
  fields : List Var
  /-- The variable has given way to the fields; solved variables are gone. -/
  context : Telescope
  /-- What the split forces on the former context. -/
  subst : Subst
deriving Repr, Inhabited

/-- What splitting on a constructor leads to. -/
inductive Candidate where
  | possible (refinement : Refinement)
  | impossible (ctor : Name)
deriving Repr, Inhabited

namespace Candidate

def ctor : Candidate → Name
  | .possible r => r.ctor
  | .impossible c => c

def isImpossible : Candidate → Bool
  | .possible _ => false
  | .impossible _ => true

def refinement? : Candidate → Option Refinement
  | .possible r => some r
  | .impossible _ => none

end Candidate

namespace Env

/-- The family of a variable's type and its arguments. -/
def splitType (env : Env) (Γ : Telescope) (v : Var) : Check (Family × List Term) := do
  match Telescope.type? Γ v with
  | none => throw (.unboundVariable v)
  | some type =>
      let type ← env.whnf type
      match type.globalSpine? with
      | some (name, args) =>
          match env.sig.family? name with
          | some family => return (family, args)
          | none => throw (.notAFamily Γ type)
      | none => throw (.notAFamily Γ type)

/-- A variable for a field: the given one, or one named after the binder, or
after the field's place if the binder has no name. -/
def fieldVar (given : Option (List Var)) (index : Nat) (binder : Var) : Fresh Var :=
  match given with
  | some vs => return vs.getD index binder
  | none =>
      if binder.name.isUnderscore then Var.fresh (Name.alphabetic index) else binder.refresh

/-- Bind the next `count` fields of a constructor whose remaining type is given. -/
def bindFields (env : Env) (ctor : Name) (given : Option (List Var)) :
    (index count : Nat) → Term → Check (Telescope × Term)
  | _, 0, type => return ([], type)
  | index, count + 1, type => do
      match ← env.whnf type with
      | .pi binder dom cod =>
          let field ← fieldVar given index binder
          let cod ← (Subst.single binder (.var field)).apply cod
          let (fields, target) ← bindFields env ctor given (index + 1) count cod
          return ((field, dom) :: fields, target)
      | _ => throw (.unexpectedBranch ctor)

/-- The context with a variable replaced by fields, and the value of the
variable substituted in later entries. -/
def replaceVar (Γ : Telescope) (position : Nat) (fields : Telescope) (split : Subst) :
    Fresh Telescope := do
  let later ← split.applyEntries (Γ.drop (position + 1))
  return Γ.take position ++ fields ++ later

/-- The given variables must be as many as the fields. -/
def checkFieldCount (ctorName : Name) (ctor : Ctor) : (given : Option (List Var)) → Check Unit
  | none => return ()
  | some vs =>
      if vs.length = ctor.numFields then return ()
      else throw (.fieldCount ctorName ctor.numFields vs.length)

/-- The arguments of a type after the parameters of its family. -/
def indices (ctor : Ctor) (type : Term) : List Term :=
  match type.globalSpine? with
  | some (_, args) => args.drop ctor.numParams
  | none => []

/-- Split a variable whose type has the given arguments on a constructor. -/
def refineAt (env : Env) (Γ : Telescope) (v : Var) (args : List Term) (ctorName : Name)
    (ctor : Ctor) (given : Option (List Var)) : Check Candidate := do
  let params := args.take ctor.numParams
  match ← env.instantiate ctor.type params with
  | none => throw (.unexpectedBranch ctorName)
  | some type =>
      let (fields, target) ← env.bindFields ctorName given 0 ctor.numFields type
      let target ← env.whnf target
      let split := Subst.single v ((Term.global ctorName).apps (params ++ Telescope.args fields))
      match Telescope.position? Γ v with
      | none => throw (.unboundVariable v)
      | some position =>
          let refined ← replaceVar Γ position fields split
          match ← unify env refined ((indices ctor target).zip (args.drop ctor.numParams)) with
          | .ok (.success unifier) =>
              let subst ← split.compose unifier.subst
              return .possible ⟨ctorName, Telescope.vars fields, unifier.context, subst⟩
          | .ok .conflict => return .impossible ctorName
          | .error error => throw (.unification refined error)

/-- Split a variable on a constructor, with variables for its fields if they
are given. -/
def refine (env : Env) (Γ : Telescope) (v : Var) (ctorName : Name)
    (given : Option (List Var)) : Check Candidate := do
  let (family, args) ← env.splitType Γ v
  match env.ctor? ctorName with
  | none => throw (.unexpectedBranch ctorName)
  | some ctor =>
      if ctor.family = family.name then do
        checkFieldCount ctorName ctor given
        env.refineAt Γ v args ctorName ctor given
      else
        throw (.unexpectedBranch ctorName)

/-- Every constructor of a variable's type, in the order of declaration. -/
def constructors (env : Env) (Γ : Telescope) (v : Var) : Check (List Candidate) := do
  let (family, _) ← env.splitType Γ v
  family.ctors.mapM fun ctor => env.refine Γ v ctor none

/-- Whether all constructors of a variable are impossible. -/
def isEmpty (env : Env) (Γ : Telescope) (v : Var) : Eval Bool := do
  match ← (env.constructors Γ v).run with
  | .ok candidates => return candidates.all (·.isImpossible)
  | .error _ => return false

/-- The first of some variables whose constructors are all impossible. -/
def findEmptyAmong (env : Env) (Γ : Telescope) : List Var → Eval (Option Var)
  | [] => return none
  | v :: vs => do
      if ← env.isEmpty Γ v then return some v else findEmptyAmong env Γ vs

/-- The first variable of a context whose constructors are all impossible. -/
def findEmpty (env : Env) (Γ : Telescope) : Eval (Option Var) :=
  env.findEmptyAmong Γ (Telescope.vars Γ)

end Env
end Clausal
