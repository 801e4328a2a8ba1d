import Clausal.Term.Basic

/-!
# Equality up to the names of bound variables
-/

namespace Clausal

/-- Pairs of binders passed on the way into two terms, the innermost first. -/
abbrev Renaming := List (Var × Var)

namespace Renaming

/-- Two variables agree when the innermost pair that has one of them has both,
or when no pair has either and they are the same. -/
def agree (r : Renaming) (v w : Var) : Bool :=
  match r.find? fun p => p.1 == v || p.2 == w with
  | some p => p.1 == v && p.2 == w
  | none => v == w

/-- Pass the fields of two branches, from left to right. -/
def bind (vs ws : List Var) (r : Renaming) : Renaming := (vs.zip ws).reverse ++ r

end Renaming

mutual

/-- Equality of terms below some binders. -/
def Term.alphaEqUnder (r : Renaming) : Term → Term → Bool
  | .univ, .univ => true
  | .var v, .var w => r.agree v w
  | .global a, .global b => a == b
  | .pi v a b, .pi w c d => a.alphaEqUnder r c && b.alphaEqUnder ((v, w) :: r) d
  | .lam v a b, .lam w c d => a.alphaEqUnder r c && b.alphaEqUnder ((v, w) :: r) d
  | .app a b, .app c d => a.alphaEqUnder r c && b.alphaEqUnder r d
  | .ann a b, .ann c d => a.alphaEqUnder r c && b.alphaEqUnder r d
  | .case a bs, .case c ds => a.alphaEqUnder r c && bs.alphaEqUnder r ds
  | .absurd a, .absurd c => a.alphaEqUnder r c
  | _, _ => false

def Branches.alphaEqUnder (r : Renaming) : Branches → Branches → Bool
  | .nil, .nil => true
  | .cons c vs a rest, .cons d ws b rest' =>
      c == d && vs.length == ws.length && a.alphaEqUnder (r.bind vs ws) b &&
        rest.alphaEqUnder r rest'
  | _, _ => false

end

/-- Equality of terms up to the choice of bound variables. -/
def Term.alphaEq (t u : Term) : Bool := t.alphaEqUnder [] u

mutual

/-- Replace every subterm that is equal to `target`.  Binders are kept. -/
def Term.abstract (t target replacement : Term) : Term :=
  if t.alphaEq target then replacement
  else match t with
    | .univ => .univ
    | .var v => .var v
    | .global name => .global name
    | .pi v a b => .pi v (a.abstract target replacement) (b.abstract target replacement)
    | .lam v a b => .lam v (a.abstract target replacement) (b.abstract target replacement)
    | .app a b => .app (a.abstract target replacement) (b.abstract target replacement)
    | .ann a b => .ann (a.abstract target replacement) (b.abstract target replacement)
    | .case a bs => .case (a.abstract target replacement) (bs.abstract target replacement)
    | .absurd a => .absurd (a.abstract target replacement)

def Branches.abstract (bs : Branches) (target replacement : Term) : Branches :=
  match bs with
  | .nil => .nil
  | .cons ctor fields body rest =>
      .cons ctor fields (body.abstract target replacement) (rest.abstract target replacement)

end

end Clausal
