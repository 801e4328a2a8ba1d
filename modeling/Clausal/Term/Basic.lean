import Clausal.Var

/-!
# Terms of the calculus

A dependently typed lambda calculus with inductive families.  The only way to
inspect a value is a case split.  Local variables are compared by identity.
-/

namespace Clausal

mutual

inductive Term where
  /-- The type of types, itself included. -/
  | univ
  | var (v : Var)
  | global (name : Name)
  /-- Dependent function types. -/
  | pi (v : Var) (dom cod : Term)
  | lam (v : Var) (dom body : Term)
  | app (head arg : Term)
  | ann (term type : Term)
  | case (scrut : Term) (branches : Branches)
  /-- The elimination of a variable whose type has no constructors left. -/
  | absurd (scrut : Term)

/-- The branches of a case split: a constructor, variables for its fields, and
what stands for it.  Parameters of the family are not bound. -/
inductive Branches where
  | nil
  | cons (ctor : Name) (fields : List Var) (body : Term) (rest : Branches)

end

deriving instance DecidableEq, Repr, Inhabited for Term
deriving instance DecidableEq, Repr, Inhabited for Branches

/-- One branch of a case split. -/
structure Branch where
  ctor : Name
  fields : List Var
  body : Term
deriving DecidableEq, Repr, Inhabited

namespace Branches

def toList : Branches → List Branch
  | .nil => []
  | .cons ctor fields body rest => ⟨ctor, fields, body⟩ :: rest.toList

def ofList : List Branch → Branches
  | [] => .nil
  | b :: bs => .cons b.ctor b.fields b.body (ofList bs)

def length (bs : Branches) : Nat := bs.toList.length

/-- The first branch of a constructor. -/
def find? (bs : Branches) (ctor : Name) : Option Branch :=
  bs.toList.find? (·.ctor == ctor)

end Branches

namespace Term

/-- Apply a head to arguments, from left to right. -/
def apps (head : Term) (args : List Term) : Term := args.foldl .app head

/-- A function type whose result does not depend on the argument. -/
def arrow (dom cod : Term) : Fresh Term := do
  return .pi (← Var.fresh Name.underscore) dom cod

/-- The name of the equality family. -/
def eqName : Name := "Eq"

/-- The name of its constructor. -/
def reflName : Name := "refl"

/-- The type of proofs that two terms are equal. -/
def eq (type lhs rhs : Term) : Term := apps (.global eqName) [type, lhs, rhs]

/-- The proof that a term equals itself. -/
def refl (type term : Term) : Term := apps (.global reflName) [type, term]

def var? : Term → Option Var
  | .var v => some v
  | _ => none

/-- The head of an application, and its arguments before those in `args`. -/
def spineOnto : Term → List Term → Term × List Term
  | .app head arg, args => head.spineOnto (arg :: args)
  | head, args => (head, args)

/-- The head of an application and its arguments. -/
def spine (t : Term) : Term × List Term := t.spineOnto []

/-- The global at the head of an application and its arguments. -/
def globalSpine? (t : Term) : Option (Name × List Term) :=
  match t.spine with
  | (.global name, args) => some (name, args)
  | _ => none

end Term

mutual

/-- Whether a variable occurs free. -/
def Term.occurs (v : Var) : Term → Bool
  | .univ => false
  | .var w => w == v
  | .global _ => false
  | .pi w dom cod => dom.occurs v || (w != v && cod.occurs v)
  | .lam w dom body => dom.occurs v || (w != v && body.occurs v)
  | .app head arg => head.occurs v || arg.occurs v
  | .ann term type => term.occurs v || type.occurs v
  | .case scrut branches => scrut.occurs v || branches.occurs v
  | .absurd scrut => scrut.occurs v

def Branches.occurs (v : Var) : Branches → Bool
  | .nil => false
  | .cons _ fields body rest => (!fields.contains v && body.occurs v) || rest.occurs v

end

mutual

/-- The occurrences of variables that are neither in `bound` nor bound inside. -/
def Term.freeVarsOutside (bound : List Var) : Term → List Var
  | .univ => []
  | .var v => if bound.contains v then [] else [v]
  | .global _ => []
  | .pi v dom cod => dom.freeVarsOutside bound ++ cod.freeVarsOutside (v :: bound)
  | .lam v dom body => dom.freeVarsOutside bound ++ body.freeVarsOutside (v :: bound)
  | .app head arg => head.freeVarsOutside bound ++ arg.freeVarsOutside bound
  | .ann term type => term.freeVarsOutside bound ++ type.freeVarsOutside bound
  | .case scrut branches => scrut.freeVarsOutside bound ++ branches.freeVarsOutside bound
  | .absurd scrut => scrut.freeVarsOutside bound

def Branches.freeVarsOutside (bound : List Var) : Branches → List Var
  | .nil => []
  | .cons _ fields body rest =>
      body.freeVarsOutside (fields ++ bound) ++ rest.freeVarsOutside bound

end

/-- The free variables of a term, each once, in the order of their first occurrence. -/
def Term.freeVars (t : Term) : List Var := (t.freeVarsOutside []).eraseDups

mutual

/-- Whether a global is referred to anywhere. -/
def Term.mentions (name : Name) : Term → Bool
  | .univ => false
  | .var _ => false
  | .global other => other == name
  | .pi _ dom cod => dom.mentions name || cod.mentions name
  | .lam _ dom body => dom.mentions name || body.mentions name
  | .app head arg => head.mentions name || arg.mentions name
  | .ann term type => term.mentions name || type.mentions name
  | .case scrut branches => scrut.mentions name || branches.mentions name
  | .absurd scrut => scrut.mentions name

def Branches.mentions (name : Name) : Branches → Bool
  | .nil => false
  | .cons _ _ body rest => body.mentions name || rest.mentions name

end

end Clausal
