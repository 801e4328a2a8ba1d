import Clausal.Diagnostic
import Clausal.Term.Printer
import Clausal.Unification

/-!
# Type errors
-/

namespace Clausal

inductive TypeError where
  | unboundVariable (v : Var)
  | unboundGlobal (name : Name)
  | mismatch (context : Telescope) (term expected found : Term)
  | notAFunction (context : Telescope) (headType : Term)
  | notAFamily (context : Telescope) (type : Term)
  /-- Case splits inspect variables only. -/
  | caseOnNonVariable (scrut : Term)
  | missingBranch (context : Telescope) (ctor : Name)
  | impossibleBranch (ctor : Name)
  | unexpectedBranch (ctor : Name)
  | fieldCount (ctor : Name) (expected found : Nat)
  /-- A variable was taken to be empty, but a constructor is possible. -/
  | notEmpty (v : Var) (ctor : Name)
  | noEmptyVariable (context : Telescope)
  /-- Case splits are checked against a type that is known. -/
  | ambiguousCase
  | unification (context : Telescope) (error : UnifyError)
deriving Repr, Inhabited

namespace TypeError

/-- A term in a message. -/
private def shown (t : Term) : Print String := do
  return quoted (← Print.render t)

/-- What a type error says.  All terms in it are printed together. -/
def message : TypeError → String
  | .unboundVariable v => "unbound local variable " ++ quoted v.name
  | .unboundGlobal name => "cannot find " ++ quoted name ++ " in the signature"
  | .mismatch Γ term expected found => Print.within Γ do
      let expected ← shown expected
      let found ← shown found
      let term ← shown term
      return "mismatched types: expected " ++ expected ++ ", found " ++ found ++ " for " ++ term
  | .notAFunction Γ headType => Print.within Γ do
      return "expected a function, found a term of type " ++ (← shown headType)
  | .notAFamily Γ type => Print.within Γ do
      return "cannot split on a value of type " ++ (← shown type)
  | .caseOnNonVariable scrut => Print.fresh do
      return "cannot split on the non-variable term " ++ (← shown scrut)
  | .missingBranch _ ctor => "missing branch for " ++ quoted ctor
  | .impossibleBranch ctor => "branch for impossible constructor " ++ quoted ctor
  | .unexpectedBranch ctor => "unexpected branch for " ++ quoted ctor
  | .fieldCount ctor expected found =>
      "constructor " ++ quoted ctor ++ s!" expects {expected} fields, found {found}"
  | .notEmpty v ctor =>
      quoted v.name ++ " is not provably empty: constructor " ++ quoted ctor ++ " is possible"
  | .noEmptyVariable Γ => Print.fresh do
      let entries ← Print.renderTelescope Γ
      if entries.isEmpty then
        return "no variable is provably empty in an empty context"
      else
        return "none of " ++ ", ".intercalate (entries.map quoted) ++ " is provably empty"
  | .ambiguousCase => "cannot infer the type of a case split"
  | .unification Γ error => Print.within Γ do
      match error with
      | .stuck lhs rhs =>
          let lhs ← shown lhs
          let rhs ← shown rhs
          return "cannot unify " ++ lhs ++ " with " ++ rhs ++ " while splitting"
      | .occurs v term =>
          let v ← shown (.var v)
          let term ← shown term
          return v ++ " occurs in its own solution " ++ term
      | .illScoped => return "context is ill-scoped after unification"

end TypeError
end Clausal
