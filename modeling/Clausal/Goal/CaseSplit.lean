import Clausal.Compilation.Elimination
import Clausal.Goal.Simplification

/-!
# Splitting goals by the cases of a function

The goal is abstracted over the arguments of an application of the function,
and the elimination principle of the function gives a subgoal for each of its
cases.  Hypotheses that depend on an abstracted variable become part of the
motive.
-/

namespace Clausal

/-- The term is no application of a compiled function to all of its arguments;
`function` is given if the fault is that it has no elimination principle. -/
structure CaseSplitError where
  target : Term
  function : Option Name
deriving Repr, Inhabited

def CaseSplitError.diagnostic (e : CaseSplitError) : Diagnostic :=
  .error ("cannot split on " ++ quoted (Print.fresh (Print.render e.target))) []
    (match e.function with
      | some function => [quoted function ++ " has no elimination principle"]
      | none => ["expected a compiled definition applied to all of its arguments"])

/-- A case of a split goal. -/
structure Subgoal where
  /-- The last hypotheses are the induction hypotheses. -/
  goal : Goal
  numIhs : Nat
  /-- The case is absurd and holds for any motive. -/
  absurd : Bool
  closed : Bool
deriving Repr, Inhabited

structure CaseSplit where
  /-- The global that proves the goal from the subgoals. -/
  eliminator : Name
  /-- The goal as a function of the arguments of the target. -/
  motive : Term
  /-- One for each case of the function, in order. -/
  subgoals : List Subgoal
deriving Repr, Inhabited

abbrev Split := ExceptT CaseSplitError Eval

namespace Goal

/-- The variable of the context that an argument is. -/
def abstracted? (goal : Goal) (arg : Term) : Option Var :=
  arg.var?.filter fun v => Telescope.contains goal.context v

/-- Divide hypotheses into those that stay and those that depend on the given
variables, directly or through each other; the given variables are left out. -/
def revert (abstracted : List Var) : (dependencies : List Var) → Telescope →
    Telescope × Telescope
  | _, [] => ([], [])
  | dependencies, (v, type) :: Γ =>
      if abstracted.contains v then
        revert abstracted dependencies Γ
      else if dependencies.any fun d => type.occurs d then
        let (kept, reverted) := revert abstracted (v :: dependencies) Γ
        (kept, (v, type) :: reverted)
      else
        let (kept, reverted) := revert abstracted dependencies Γ
        ((v, type) :: kept, reverted)

/-- Replace arguments by parameters: variables of the context by substitution,
other arguments wherever they occur.  Of a repeated variable the first
parameter counts. -/
def replaceArgs (goal : Goal) : List (Term × Var) → Subst → Term → Fresh (Subst × Term)
  | [], σ, body => return (σ, body)
  | (arg, param) :: rest, σ, body =>
      match goal.abstracted? arg with
      | some v => do
          if σ.contains v then
            replaceArgs goal rest σ body
          else
            let σ ← σ.insert v (.var param)
            replaceArgs goal rest σ body
      | none => replaceArgs goal rest σ (body.abstract arg (.var param))

/-- The hypotheses that stay, and the goal over the parameters. -/
def generalise (goal : Goal) (args : List Term) (params : Telescope) :
    Fresh (Telescope × Term) := do
  let abstracted := args.filterMap goal.abstracted?
  let (kept, reverted) := revert abstracted abstracted goal.context
  let whole := Telescope.pis reverted goal.type
  let (σ, body) ← goal.replaceArgs (args.zip (Telescope.vars params)) .empty whole
  let body ← σ.apply body
  return (kept, body)

end Goal

/-- Take `count` function types of a case as hypotheses after those of `Γ`; the
rest is the conclusion. -/
def Env.introduce (env : Env) : (count : Nat) → Subst → Telescope → Term → Eval (Option Goal)
  | 0, σ, Γ, conclusion => do
      let type ← σ.apply conclusion
      return some ⟨Γ, type⟩
  | count + 1, σ, Γ, .pi v dom cod => do
      let w ← v.refresh
      let dom ← σ.apply dom
      let dom ← env.normalise dom
      let σ ← σ.insert v (.var w)
      introduce env count σ (Γ ++ [(w, dom)]) cod
  | _ + 1, _, _, _ => return none

namespace Split

/-- The subgoals of the hypotheses that a principle still asks for; `refused` is
the fault if its type does not ask for them. -/
def subgoals (base : RuleBase) (sig : Signature) (function : Name) (refused : CaseSplitError)
    (Γ : Telescope) : List Hypothesis → Term → Split (List Subgoal)
  | [], _ => return []
  | h :: hs, .pi _ type rest => do
      let env : Env := { sig }
      match ← env.introduce (h.numParams + h.numIhs) .empty Γ type with
      | none => throw refused
      | some goal =>
          let s ← goal.simplify base sig [function]
          let others ← subgoals base sig function refused Γ hs rest
          return { goal := s.goal, numIhs := h.numIhs, absurd := h.absurd, closed := s.closed }
            :: others
  | _ :: _, _ => throw refused

end Split

/-- Split a goal by the cases of the function that is applied in `target`. -/
def Goal.caseSplit (base : RuleBase) (sig : Signature) (goal : Goal) (target : Term) :
    Split CaseSplit := do
  match target.globalSpine? with
  | none => throw ⟨target, none⟩
  | some (function, args) =>
      let refused : CaseSplitError := ⟨target, some function⟩
      match base.eliminator? function with
      | none => throw refused
      | some eliminator =>
          match sig.type? eliminator.name with
          | none => throw refused
          | some type =>
              if args.length != eliminator.arity then
                throw ⟨target, none⟩
              match type with
              | .pi _ motiveType _ =>
                  let params ← (Telescope.ofType motiveType).1.freshen
                  if params.length != args.length then
                    throw refused
                  let (context, body) ← goal.generalise args params
                  let motive := Telescope.lams params body
                  let env : Env := { sig }
                  match ← env.instantiate type [motive] with
                  | none => throw refused
                  | some type =>
                      let subgoals ←
                        Split.subgoals base sig function refused context eliminator.hypotheses type
                      return { eliminator := eliminator.name, motive, subgoals }
              | _ => throw refused

end Clausal
