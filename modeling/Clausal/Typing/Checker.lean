import Clausal.Typing.Refinement

/-!
# Type checking

Types of variables, globals, applications and annotated terms are inferred;
function literals, case splits and absurd eliminations are checked against a
given type.  A case split on a variable is checked in the context that each
constructor refines; one on a constructor is reduced first.
-/

namespace Clausal.Env

/-- The variable of a context that a term is. -/
def contextVar? (Γ : Telescope) (t : Term) : Option Var :=
  t.var?.filter fun v => Telescope.contains Γ v

/-- Branches that have no constructor of their own: repeated ones, and those of
other families. -/
def unexpectedBranch? (ctors : List Name) : (seen : List Name) → List Branch → Option Name
  | _, [] => none
  | seen, b :: bs =>
      if seen.contains b.ctor || !ctors.contains b.ctor then some b.ctor
      else unexpectedBranch? ctors (b.ctor :: seen) bs

/-- A variable can be eliminated only if no constructor is possible. -/
def checkAbsurd (env : Env) (Γ : Telescope) (scrut : Term) : Check Unit := do
  match contextVar? Γ scrut with
  | none => throw (.caseOnNonVariable scrut)
  | some v =>
      let candidates ← env.constructors Γ v
      match candidates.filterMap (·.refinement?) with
      | [] => return ()
      | r :: _ => throw (.notEmpty v r.ctor)

mutual

/-- The type of a term, to a given depth. -/
def synthWith (env : Env) : (fuel : Nat) → Telescope → Term → Check Term
  | 0, _, _ => Check.outOfFuel
  | fuel + 1, Γ, t => do
      match t with
      | .univ => return .univ
      | .var v =>
          match Telescope.type? Γ v with
          | some type => return type
          | none => throw (.unboundVariable v)
      | .global name =>
          match env.sig.type? name with
          | some type => return type
          | none => throw (.unboundGlobal name)
      | .pi v dom cod =>
          checkWith env fuel Γ dom .univ
          checkWith env fuel (Γ ++ [(v, dom)]) cod .univ
          return .univ
      | .lam v dom body =>
          checkWith env fuel Γ dom .univ
          let cod ← synthWith env fuel (Γ ++ [(v, dom)]) body
          return .pi v dom cod
      | .app head arg =>
          let headType ← synthWith env fuel Γ head
          match ← env.whnf headType with
          | .pi v dom cod =>
              checkWith env fuel Γ arg dom
              (Subst.single v arg).apply cod
          | _ => throw (.notAFunction Γ headType)
      | .ann t type =>
          checkWith env fuel Γ type .univ
          checkWith env fuel Γ t type
          return type
      | .case _ _ | .absurd _ => throw .ambiguousCase

/-- Check a term against a type, to a given depth. -/
def checkWith (env : Env) : (fuel : Nat) → Telescope → Term → Term → Check Unit
  | 0, _, _, _ => Check.outOfFuel
  | fuel + 1, Γ, t, expected => do
      match t with
      | .lam v dom body =>
          match ← env.whnf expected with
          | .pi w dom' cod' =>
              checkWith env fuel Γ dom .univ
              if ← env.convertible dom dom' then
                let cod' ← (Subst.single w (.var v)).apply cod'
                checkWith env fuel (Γ ++ [(v, dom)]) body cod'
              else
                throw (.mismatch Γ (.var v) dom' dom)
          | _ => checkSynth env fuel Γ t expected
      | .case scrut branches =>
          match contextVar? Γ scrut with
          | some v =>
              let (family, _) ← env.splitType Γ v
              match unexpectedBranch? family.ctors [] branches.toList with
              | some ctor => throw (.unexpectedBranch ctor)
              | none => checkBranches env fuel Γ v branches expected family.ctors
          | none =>
              match ← env.whnf t with
              | .case scrut _ => throw (.caseOnNonVariable scrut)
              | reduced => checkWith env fuel Γ reduced expected
      | .absurd scrut => env.checkAbsurd Γ scrut
      | _ => checkSynth env fuel Γ t expected

/-- Check a term by its inferred type. -/
def checkSynth (env : Env) : (fuel : Nat) → Telescope → Term → Term → Check Unit
  | 0, _, _, _ => Check.outOfFuel
  | fuel + 1, Γ, t, expected => do
      let found ← synthWith env fuel Γ t
      if ← env.convertible found expected then
        return ()
      else
        throw (.mismatch Γ t expected found)

/-- Check that the branches of a split on a variable cover the constructors of
its family: exactly the possible ones have a branch. -/
def checkBranches (env : Env) :
    (fuel : Nat) → Telescope → Var → Branches → Term → List Name → Check Unit
  | 0, _, _, _, _, _ => Check.outOfFuel
  | _ + 1, _, _, _, _, [] => return ()
  | fuel + 1, Γ, v, branches, expected, ctor :: ctors => do
      let branch? := branches.find? ctor
      match ← env.refine Γ v ctor (branch?.map (·.fields)), branch? with
      | .possible r, some branch =>
          let body ← r.subst.apply branch.body
          let type ← r.subst.apply expected
          checkWith env fuel r.context body type
      | .possible _, none => throw (.missingBranch Γ ctor)
      | .impossible _, some _ => throw (.impossibleBranch ctor)
      | .impossible _, none => pure ()
      checkBranches env fuel Γ v branches expected ctors

end

/-- The type of a term in a context. -/
def synth (env : Env) (Γ : Telescope) (t : Term) : Check Term := synthWith env env.fuel Γ t

/-- Check a term against a type. -/
def check (env : Env) (Γ : Telescope) (t type : Term) : Check Unit :=
  checkWith env env.fuel Γ t type

/-- Check that a term is a type. -/
def checkType (env : Env) (Γ : Telescope) (t : Term) : Check Unit := env.check Γ t .univ

end Clausal.Env
