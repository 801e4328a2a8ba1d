import Clausal.RuleBase
import Clausal.Subst
import Clausal.Term.Alpha

/-!
# Contraction by rules

A rule applies to the terms that are instances of its left side.  A term is
contracted at the outermost place where a rule applies, and at the leftmost of
those; of several rules the first counts.
-/

namespace Clausal

/-- Extend `σ` so that the pattern becomes the term; the variables of `Γ` stand
for any terms, and a repeated one for the same term. -/
def Term.matchWith (Γ : Telescope) : (pattern term : Term) → Subst → Fresh (Option Subst)
  | .app head arg, .app head' arg', σ => do
      match ← head.matchWith Γ head' σ with
      | some σ => arg.matchWith Γ arg' σ
      | none => return none
  | .var v, term, σ =>
      if Telescope.contains Γ v then
        match σ.get? v with
        | some value => return if value.alphaEq term then some σ else none
        | none => do
            let σ ← σ.insert v term
            return some σ
      else
        return if (Term.var v).alphaEq term then some σ else none
  | pattern, term, σ => return if pattern.alphaEq term then some σ else none

namespace Rule

/-- Whether a substitution has values for all variables of the right side. -/
def bindsRhs (r : Rule) (σ : Subst) : Bool :=
  (r.rhs.freeVars.filter fun v => Telescope.contains r.context v).all σ.contains

/-- What a term that is an instance of the left side becomes. -/
def fire? (r : Rule) (term : Term) : Fresh (Option Term) := do
  match ← r.lhs.matchWith r.context term .empty with
  | some σ => if r.bindsRhs σ then some <$> σ.apply r.rhs else return none
  | none => return none

/-- Apply the first rule that applies. -/
def fireFirst? : List Rule → Term → Fresh (Option Term)
  | [], _ => return none
  | r :: rs, term => do
      match ← r.fire? term with
      | some term => return some term
      | none => fireFirst? rs term

end Rule

mutual

/-- Contract the outermost, leftmost place where a rule applies. -/
def Term.contract? (rules : List Rule) (t : Term) : Fresh (Option Term) := do
  match ← Rule.fireFirst? rules t with
  | some u => return some u
  | none =>
      match t with
      | .univ | .var _ | .global _ => return none
      | .pi v dom cod =>
          match ← dom.contract? rules with
          | some dom => return some (.pi v dom cod)
          | none => return (← cod.contract? rules).map (.pi v dom ·)
      | .lam v dom body =>
          match ← dom.contract? rules with
          | some dom => return some (.lam v dom body)
          | none => return (← body.contract? rules).map (.lam v dom ·)
      | .app head arg =>
          match ← head.contract? rules with
          | some head => return some (.app head arg)
          | none => return (← arg.contract? rules).map (.app head ·)
      | .ann t type =>
          match ← t.contract? rules with
          | some t => return some (.ann t type)
          | none => return (← type.contract? rules).map (.ann t ·)
      | .case scrut branches =>
          match ← scrut.contract? rules with
          | some scrut => return some (.case scrut branches)
          | none => return (← branches.contract? rules).map (.case scrut ·)
      | .absurd scrut => return (← scrut.contract? rules).map .absurd
termination_by structural t

/-- Contract in the first branch where a rule applies. -/
def Branches.contract? (rules : List Rule) (bs : Branches) : Fresh (Option Branches) :=
  match bs with
  | .nil => return none
  | .cons ctor fields body rest => do
      match ← body.contract? rules with
      | some body => return some (.cons ctor fields body rest)
      | none => return (← rest.contract? rules).map (.cons ctor fields body ·)
termination_by structural bs

end

end Clausal
