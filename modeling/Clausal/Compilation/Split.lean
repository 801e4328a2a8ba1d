import Clausal.Compilation.Workspace
import Clausal.Splitting.Problem

/-!
# Splitting

The rows of a function are split into a tree.  A row that matches is settled at
once, before the branches beside it are split: settling it may compile
auxiliaries, and the branches after it are split against the signature that has
them.
-/

namespace Clausal

/-- A row that matched in a problem, with what its names and inaccessible
patterns met. -/
structure ReachedRow where
  index : Nat
  row : Row
  problem : Problem
  locals : Surface.Locals
  forced : List Forced
deriving Repr, Inhabited

namespace Compile

mutual

/-- Split a problem by the rows that may still match.  The answer is a tree and
the indices of the rows that were reached. -/
def split (target : SplitTarget) (settle : ReachedRow → Compile SplitTree) :
    (fuel : Nat) → Problem → List (Nat × Row) → Compile (SplitTree × List Nat)
  | 0, _, _ => outOfFuel
  | fuel + 1, p, rows => do
      match ← liftM ((← env).decideRows p rows) with
      | .reached index row locals forced =>
          let tree ← settle { index, row, problem := p, locals, forced }
          return (tree, [index])
      | .failed error => throw error
      | .exhausted =>
          match ← liftM ((← env).findEmpty p.context) with
          | some v => return (.absurd p.context v p.args p.goal, [])
          | none => throw (.nonExhaustive target.span target.name p.context p.args)
      | .split v pattern rows =>
          match ← checked (.typing pattern.span) ((← env).refinements p.context v pattern) with
          | [] => return (.absurd p.context v p.args p.goal, [])
          | r :: rs =>
              let (branches, reached) ← splitBranches target settle fuel p rows (r :: rs)
              return (.split p.context v branches, reached)

/-- Split the refinements of a problem, from left to right. -/
def splitBranches (target : SplitTarget) (settle : ReachedRow → Compile SplitTree) :
    (fuel : Nat) → Problem → List (Nat × Row) → List Refinement →
      Compile (SplitBranches × List Nat)
  | 0, _, _, _ => outOfFuel
  | _ + 1, _, _, [] => return (.nil, [])
  | fuel + 1, p, rows, r :: rs => do
      let refined ← (p.refine r : Fresh Problem)
      let (tree, reached) ← split target settle fuel refined rows
      let (rest, later) ← splitBranches target settle fuel p rows rs
      return (.cons r.ctor r.fields tree rest, reached ++ later)

end

/-- Split a problem by all rows of a function. -/
def splitRows (target : SplitTarget) (settle : ReachedRow → Compile SplitTree) (fuel : Nat)
    (p : Problem) : Compile (SplitTree × List Nat) :=
  split target settle fuel p (target.rows.zipIdx.map fun (row, index) => (index, row))

end Compile

end Clausal
