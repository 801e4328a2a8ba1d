import Clausal.Compilation.Error
import Clausal.RuleBase
import Clausal.Splitting.Tree
import Clausal.Typing.Checker

/-!
# Equations of a function

Every leaf of a splitting tree gives an equation: the function applied to what
the clause matched equals the right-hand side.  It is proved by reflexivity,
since the function unfolds to its case tree and that reduces to the leaf.
-/

namespace Clausal

/-- Work on a definition that needs no more than a signature. -/
abbrev Attempt := ExceptT CompileError Eval

structure Equation where
  name : Name
  type : Term
  proof : Term
  rule : Rule
deriving Repr, Inhabited

namespace Equation

/-- The equation of a leaf, numbered from one. -/
def ofLeaf (function : Name) (number : Nat) (site : LeafSite) (rhs : Term) : Equation :=
  let name := Name.qualify function s!"equation_{number}"
  let lhs := (Term.global function).apps site.args
  { name
    type := Telescope.pis site.context (.eq site.goal lhs rhs)
    proof := Telescope.lams site.context (.refl site.goal lhs)
    rule := { name, context := site.context, type := site.goal, lhs, rhs } }

/-- The equations of a function, one for each leaf of its tree, in order. -/
def ofTree (function : Name) (tree : SplitTree) : List Equation :=
  tree.leaves.zipIdx.map fun ((site, rhs), index) => ofLeaf function (index + 1) site rhs

/-- Check the proof of an equation. -/
def check (env : Env) (e : Equation) : Attempt Unit :=
  ExceptT.adapt (.illTyped e.name) (env.check [] e.proof e.type)

/-- Generate the equations of a function and check them, the function unfolded. -/
def generate (sig : Signature) (function : Name) (tree : SplitTree) : Attempt (List Equation) := do
  let env : Env := { sig, unfold := [function] }
  let equations := ofTree function tree
  equations.forM (check env)
  return equations

end Equation
end Clausal
