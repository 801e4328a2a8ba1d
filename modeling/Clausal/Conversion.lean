import Clausal.Reduction

/-!
# Conversion

Two terms are convertible when their weak-head normal forms agree part by
part, with function literals taken up to eta.  The parameter types of literals
are not compared.
-/

namespace Clausal.Env

/-- The renaming of the fields of one branch to those of another. -/
def fieldRenaming (fields others : List Var) : Subst :=
  .ofPairs (others.zip (fields.map Term.var))

mutual

/-- Conversion to a given depth. -/
def convertibleWith (env : Env) : (fuel : Nat) → Term → Term → Eval Bool
  | 0, _, _ => outOfFuel
  | fuel + 1, t, u =>
      if t = u then return true
      else do
        let t ← env.whnf t
        let u ← env.whnf u
        match t, u with
        | .univ, .univ => return true
        | .var v, .var w => return v == w
        | .global a, .global b => return a == b
        | .pi v dom cod, .pi w dom' cod' =>
            if ← convertibleWith env fuel dom dom' then
              let cod' ← cod'.rename w v
              convertibleWith env fuel cod cod'
            else
              return false
        | .lam v _ body, .lam w _ body' =>
            let body' ← body'.rename w v
            convertibleWith env fuel body body'
        | .lam v _ body, u => convertibleWith env fuel body (.app u (.var v))
        | t, .lam v _ body => convertibleWith env fuel (.app t (.var v)) body
        | .app head arg, .app head' arg' =>
            if ← convertibleWith env fuel head head' then
              convertibleWith env fuel arg arg'
            else
              return false
        | .case scrut bs, .case scrut' bs' =>
            if ← convertibleWith env fuel scrut scrut' then
              if bs.length = bs'.length then convertibleBranches env fuel bs bs'
              else return false
            else
              return false
        | .absurd t, .absurd u => convertibleWith env fuel t u
        | _, _ => return false

def convertibleBranches (env : Env) : (fuel : Nat) → Branches → Branches → Eval Bool
  | 0, _, _ => outOfFuel
  | fuel + 1, .cons c fields body rest, .cons d fields' body' rest' =>
      if c == d && fields.length == fields'.length then do
        let body' ← (fieldRenaming fields fields').apply body'
        if ← convertibleWith env fuel body body' then
          convertibleBranches env fuel rest rest'
        else
          return false
      else
        return false
  | _ + 1, _, _ => return true

end

/-- Whether two terms are equal by computation. -/
def convertible (env : Env) (t u : Term) : Eval Bool := convertibleWith env env.fuel t u

end Clausal.Env
