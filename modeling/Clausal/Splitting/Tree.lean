import Clausal.Telescope

/-!
# Splitting trees

What the clauses of a function come to: case splits on variables, leaves where
a clause applies, and variables that are empty.  A leaf whose clause inspects
another term calls an auxiliary and holds the tree of that auxiliary.
-/

namespace Clausal

/-- Where a clause applies. -/
structure LeafSite where
  /-- The index of the clause. -/
  clause : Nat
  context : Telescope
  /-- The arguments of the function as the clause matched them. -/
  args : List Term
  goal : Term
deriving Repr, Inhabited

/-- The inspection of a term by an auxiliary. -/
structure Inspection where
  function : Name
  /-- The inspected term and its type. -/
  scrut : Term
  scrutType : Term
  /-- The parameter of the auxiliary that stands for the inspected term. -/
  scrutVar : Var
  /-- The parameter that says what the inspected term equals. -/
  equationVar : Var
  /-- The call of the auxiliary that stands for the clause. -/
  call : Term
deriving Repr, Inhabited

mutual

inductive SplitTree where
  | split (context : Telescope) (v : Var) (branches : SplitBranches)
  | leaf (site : LeafSite) (body : Term)
  | inspect (site : LeafSite) (node : Inspection) (tree : SplitTree)
  | absurd (context : Telescope) (v : Var) (args : List Term) (goal : Term)

/-- One branch for each possible constructor, in the order of declaration. -/
inductive SplitBranches where
  | nil
  | cons (ctor : Name) (fields : List Var) (tree : SplitTree) (rest : SplitBranches)

end

deriving instance Repr, Inhabited for SplitTree
deriving instance Repr, Inhabited for SplitBranches

mutual

/-- The number of leaves and absurd nodes, those of inspections included. -/
def SplitTree.numCases : SplitTree → Nat
  | .split _ _ branches => branches.numCases
  | .leaf _ _ => 1
  | .inspect _ _ tree => tree.numCases
  | .absurd _ _ _ _ => 1

def SplitBranches.numCases : SplitBranches → Nat
  | .nil => 0
  | .cons _ _ tree rest => tree.numCases + rest.numCases

end

mutual

/-- The body of the function, over the variables of its arguments. -/
def SplitTree.body : SplitTree → Term
  | .split _ v branches => .case (.var v) branches.bodies
  | .leaf _ body => body
  | .inspect _ node _ => node.call
  | .absurd _ v _ _ => .absurd (.var v)

def SplitBranches.bodies : SplitBranches → Branches
  | .nil => .nil
  | .cons ctor fields tree rest => .cons ctor fields tree.body rest.bodies

end

mutual

/-- The leaves of a tree and their right-hand sides, from left to right.
Leaves of inspections belong to the auxiliaries. -/
def SplitTree.leaves : SplitTree → List (LeafSite × Term)
  | .split _ _ branches => branches.leaves
  | .leaf site body => [(site, body)]
  | .inspect site node _ => [(site, node.call)]
  | .absurd _ _ _ _ => []

def SplitBranches.leaves : SplitBranches → List (LeafSite × Term)
  | .nil => []
  | .cons _ _ tree rest => tree.leaves ++ rest.leaves

end

end Clausal
