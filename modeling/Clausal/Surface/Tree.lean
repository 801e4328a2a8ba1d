import Clausal.Name
import Clausal.Text.Span

/-!
# Surface syntax trees

What a module says, as it is written.  Every node keeps the span it was read
from.  Names in patterns are not yet told apart into constructors and
variables; that needs the signature.
-/

namespace Clausal.Surface

/-- A name at a place. -/
structure Ident where
  span : Span
  name : Name
deriving DecidableEq, Repr, Inhabited

mutual

/-- Terms. -/
inductive Term where
  | name (span : Span) (name : Name)
  | univ (span : Span)
  | ann (span : Span) (term type : Term)
  /-- A function type that does not name its argument. -/
  | arrow (span : Span) (dom cod : Term)
  | pi (span : Span) (params : List Param) (body : Term)
  | lam (span : Span) (params : List Param) (body : Term)
  | app (span : Span) (head arg : Term)

/-- Parameters that share a type, as in `(x y : A)`. -/
inductive Param where
  | mk (names : List Ident) (type : Term)

end

deriving instance Repr, Inhabited for Term
deriving instance Repr, Inhabited for Param

namespace Param

def names : Param → List Ident
  | .mk names _ => names

def type : Param → Term
  | .mk _ type => type

end Param

def Term.span : Term → Span
  | .name span _ | .univ span | .ann span _ _ | .arrow span _ _ | .pi span _ _
  | .lam span _ _ | .app span _ _ => span

/-- Patterns. -/
inductive Pattern where
  /-- A constructor without arguments, or a variable. -/
  | name (span : Span) (name : Name)
  | placeholder (span : Span)
  | ctor (span : Span) (head : Ident) (args : List Pattern)
  /-- A term that the other patterns force, as in `.(succ n)`. -/
  | inaccessible (span : Span) (term : Term)
  | list (span : Span) (elems : List Pattern)
deriving Repr, Inhabited

def Pattern.span : Pattern → Span
  | .name span _ | .placeholder span | .ctor span _ _ | .inaccessible span _
  | .list span _ => span

mutual

/-- One clause of a definition. -/
inductive Clause where
  | mk (span : Span) (patterns : List Pattern) (rhs : Rhs) (auxiliaries : List Definition)

/-- What a clause answers. -/
inductive Rhs where
  | term (body : Term)
  /-- Inspect a term, with a name for the equation between it and its value. -/
  | inspect (scrut : Term) (equation : Option Ident) (clauses : List Clause)
  /-- Nothing: the patterns cannot be met.  The span is that of the patterns. -/
  | absurd (span : Span)

/-- A definition by clauses. -/
inductive Definition where
  | mk (span : Span) (name : Ident) (transparent : Bool) (params : List Param) (type : Term)
      (clauses : List Clause)

end

deriving instance Repr, Inhabited for Rhs
deriving instance Repr, Inhabited for Clause
deriving instance Repr, Inhabited for Definition

namespace Clause

def span : Clause → Span
  | .mk span _ _ _ => span

def patterns : Clause → List Pattern
  | .mk _ patterns _ _ => patterns

def rhs : Clause → Rhs
  | .mk _ _ rhs _ => rhs

/-- The definitions visible in this clause only. -/
def auxiliaries : Clause → List Definition
  | .mk _ _ _ auxiliaries => auxiliaries

end Clause

namespace Definition

def span : Definition → Span
  | .mk span _ _ _ _ _ => span

def name : Definition → Ident
  | .mk _ name _ _ _ _ => name

/-- Whether the definition unfolds during conversion. -/
def transparent : Definition → Bool
  | .mk _ _ transparent _ _ _ => transparent

def params : Definition → List Param
  | .mk _ _ _ params _ _ => params

def type : Definition → Term
  | .mk _ _ _ _ type _ => type

def clauses : Definition → List Clause
  | .mk _ _ _ _ _ clauses => clauses

end Definition

/-- A constructor and its declared type. -/
structure CtorDecl where
  name : Ident
  type : Term
deriving Repr, Inhabited

/-- An inductive family. -/
structure Family where
  span : Span
  name : Ident
  params : List Param
  type : Term
  ctors : List CtorDecl
deriving Repr, Inhabited

/-- Top-level items. -/
inductive Item where
  | family (family : Family)
  | definition (definition : Definition)
  /-- A constant without a value. -/
  | postulate (span : Span) (name : Ident) (type : Term)
  /-- An equation to simplify with, taken on trust. -/
  | rule (span : Span) (name : Ident) (type : Term)
  /-- The constructors that list patterns stand for. -/
  | listNotation (span : Span) (nil cons : Ident)
deriving Repr, Inhabited

def Item.span : Item → Span
  | .family f => f.span
  | .definition d => d.span
  | .postulate span _ _ | .rule span _ _ | .listNotation span _ _ => span

end Clausal.Surface
