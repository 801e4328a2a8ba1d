import Clausal.Compilation.Equation
import Clausal.Term.Alpha

/-!
# Elimination principles

For a function `f` of arguments `Δ` the principle has the type

```
f.elim : (P : Δ -> Type) -> H1 -> … -> Hk -> Δ -> P Δ
```

with a hypothesis for every leaf and absurd node of the tree of `f`, those of
inspections included.  A hypothesis takes the variables of its node, the
motive for every full recursive call of its right-hand side, and gives the
motive for the arguments of the node.  The proof follows the tree and is
itself recursive.
-/

namespace Clausal

structure Elimination where
  name : Name
  type : Term
  term : Term
  /-- The number of arguments of the function. -/
  arity : Nat
  hypotheses : List Hypothesis
deriving Repr, Inhabited

def Elimination.eliminator (e : Elimination) (function : Name) : Eliminator :=
  { name := e.name, function, arity := e.arity, hypotheses := e.hypotheses }

/-- The arguments of calls of a function with at least one and exactly `arity`
arguments, outside of binders; `args` are the arguments that the term is
applied to. -/
def Term.callsWith (function : Name) (arity : Nat) : Term → (args : List Term) → List (List Term)
  | .app head arg, args =>
      head.callsWith function arity (arg :: args) ++ arg.callsWith function arity []
  | .global name, args =>
      if name == function && args.length == arity && !args.isEmpty then [args] else []
  | .ann t _, _ => t.callsWith function arity []
  | _, _ => []

/-- Whether two argument lists are equal, term by term. -/
def sameArgs (args others : List Term) : Bool :=
  (args.zip others).all fun (t, u) => t.alphaEq u

/-- The argument lists without repetitions. -/
def distinctCalls (calls : List (List Term)) : List (List Term) :=
  calls.foldl (fun seen args =>
    if seen.any fun other => sameArgs other args then seen else seen ++ [args]) []

/-- The arguments of the full recursive calls in a term, each once. -/
def Term.recursiveCalls (t : Term) (function : Name) (arity : Nat) : List (List Term) :=
  distinctCalls (t.callsWith function arity [])

/-- A copy of a telescope with fresh variables; `σ` has those of earlier entries. -/
def Telescope.freshenWith (σ : Subst) : Telescope → Fresh Telescope
  | [] => return []
  | (v, type) :: Γ => do
      let w ← v.refresh
      let type ← σ.apply type
      let σ ← σ.insert v (.var w)
      let Γ ← freshenWith σ Γ
      return (w, type) :: Γ

/-- A copy of a telescope with fresh variables. -/
def Telescope.freshen (Γ : Telescope) : Fresh Telescope := freshenWith .empty Γ

namespace Elimination

/-- A leaf around the current one that inspects a term: the variables of its
context, and the arguments of its function. -/
structure Enclosing where
  params : List Var
  args : List Term
deriving Repr

/-- What the proof of a principle refers to. -/
structure Plan where
  function : Name
  name : Name
  arity : Nat
  motive : Var
  hypotheses : List Var
deriving Repr

/-- A hypothesis that the proof has used. -/
structure Used where
  var : Var
  type : Term
  shape : Hypothesis
deriving Repr

/-- Building a proof collects hypotheses in the order of the tree. -/
abbrev Build := StateT (List Used) Fresh

def Plan.motiveAt (plan : Plan) (args : List Term) : Term := (Term.var plan.motive).apps args

/-- Arguments of an auxiliary as arguments of the function, through the leaves
around it, the innermost first. -/
def toRoot (args : List Term) : List Enclosing → Fresh (List Term)
  | [] => return args
  | scope :: scopes => do
      let args ← (Subst.ofPairs (scope.params.zip args)).applyAll scope.args
      toRoot args scopes

/-- Parameters for the motive at recursive calls. -/
def Plan.ihParams (plan : Plan) : List (List Term) → Fresh Telescope
  | [] => return []
  | call :: calls => do
      let v ← Var.fresh "IH"
      let Γ ← ihParams plan calls
      return (v, plan.motiveAt call) :: Γ

/-- Use the next hypothesis for a node. -/
def Plan.hypothesis (plan : Plan) (Γ : Telescope) (args : List Term) (calls : List (List Term))
    (absurd : Bool) (scopes : List Enclosing) : Build Var := do
  let used ← get
  let var := plan.hypotheses.getD used.length plan.motive
  let ihs ← plan.ihParams calls
  let args ← toRoot args scopes
  let type := Telescope.pis (Γ ++ ihs) (plan.motiveAt args)
  set (used ++ [⟨var, type, ⟨absurd, Γ.length, calls.length⟩⟩])
  return var

/-- The principle applied to the motive and all hypotheses. -/
def Plan.recursor (plan : Plan) : Term :=
  (Term.global plan.name).apps (.var plan.motive :: plan.hypotheses.map Term.var)

mutual

/-- The proof that follows a tree. -/
def Plan.proof (plan : Plan) (scopes : List Enclosing) : SplitTree → Build Term
  | .split _ v branches => do
      let branches ← plan.proofs scopes branches
      return .case (.var v) branches
  | .absurd Γ v args _ => do
      let _ ← plan.hypothesis Γ args [] true scopes
      return .absurd (.var v)
  | .leaf site body => do
      let calls := body.recursiveCalls plan.function plan.arity
      let h ← plan.hypothesis site.context site.args calls false scopes
      return (Term.var h).apps
        (Telescope.args site.context ++ calls.map plan.recursor.apps)
  | .inspect site node tree => do
      let args ← toRoot site.args scopes
      let subproof ←
        plan.proof (⟨Telescope.vars site.context, site.args⟩ :: scopes) tree
      let equationType := Term.eq node.scrutType node.scrut (.var node.scrutVar)
      let params : Telescope :=
        [(node.scrutVar, node.scrutType), (node.equationVar, equationType)]
      return (Term.ann (params.lams subproof) (params.pis (plan.motiveAt args))).apps
        [node.scrut, .refl node.scrutType node.scrut]

def Plan.proofs (plan : Plan) (scopes : List Enclosing) : SplitBranches → Build Branches
  | .nil => return .nil
  | .cons ctor fields tree rest => do
      let body ← plan.proof scopes tree
      let rest ← plan.proofs scopes rest
      return .cons ctor fields body rest

end

/-- The elimination principle of a function, before it is checked. -/
def draft (function : Name) (Γ : Telescope) (tree : SplitTree) : Fresh Elimination := do
  let name := Name.qualify function "elim"
  let motive ← Var.fresh "P"
  let hypotheses ← (List.range tree.numCases).mapM fun index => Var.fresh s!"H{index + 1}"
  let plan : Plan := { function, name, arity := Γ.length, motive, hypotheses }
  let (proof, used) ← (plan.proof [] tree).run []
  let motiveParams ← Telescope.freshen Γ
  let params : Telescope :=
    (motive, Telescope.pis motiveParams .univ) :: used.map fun h => (h.var, h.type)
  return {
    name
    type := params.pis (Telescope.pis Γ (plan.motiveAt (Telescope.args Γ)))
    term := params.lams (Telescope.lams Γ proof)
    arity := Γ.length
    hypotheses := used.map (·.shape) }

/-- Derive the elimination principle of a function of arguments `Γ`, check it,
and add it to the signature. -/
def derive (sig : Signature) (function : Name) (Γ : Telescope) (tree : SplitTree) :
    Attempt (Elimination × Signature) := do
  let e ← draft function Γ tree
  let declared := sig.addFunction { name := e.name, type := e.type }
  let env : Env := { sig := declared }
  ExceptT.adapt (.illTyped e.name) (env.check [] e.term e.type)
  return (e, declared.addFunction { name := e.name, type := e.type, body := some e.term })

end Elimination
end Clausal
