import Clausal.Telescope

/-!
# Signatures

The globals that terms may refer to: families, constructors, functions and
postulated constants, each under its name.
-/

namespace Clausal

/-- An inductive family. -/
structure Family where
  name : Name
  /-- Parameters, shared by all constructors. -/
  params : Telescope
  /-- The whole type, parameters first. -/
  type : Term
  /-- Constructors in the order of their declaration. -/
  ctors : List Name
deriving Repr, Inhabited

/-- A constructor of a family. -/
structure Ctor where
  name : Name
  family : Name
  numParams : Nat
  numFields : Nat
  /-- The whole type, parameters of the family first. -/
  type : Term
deriving Repr, Inhabited

/-- A function, compiled from clauses or generated beside one. -/
structure Function where
  name : Name
  type : Term
  /-- There is no body while the function is being compiled. -/
  body : Option Term := none
  /-- Whether the body may be unfolded everywhere. -/
  transparent : Bool := false
  /-- The elimination principle that follows the function's clauses. -/
  eliminator : Option Name := none
deriving Repr, Inhabited

inductive Entry where
  | family (f : Family)
  | ctor (c : Ctor)
  | function (f : Function)
  | postulate (type : Term)
deriving Repr, Inhabited

def Entry.type : Entry → Term
  | .family f => f.type
  | .ctor c => c.type
  | .function f => f.type
  | .postulate type => type

/-- Globals in the order in which their names were first added. -/
structure Signature where
  entries : List (Name × Entry) := []
  /-- The constructors that list patterns stand for. -/
  listNotation : Option (Name × Name) := none
deriving Repr, Inhabited

namespace Signature

def get? (sig : Signature) (name : Name) : Option Entry :=
  (sig.entries.find? fun entry => entry.1 == name).map (·.2)

def contains (sig : Signature) (name : Name) : Bool := (sig.get? name).isSome

def names (sig : Signature) : List Name := sig.entries.map (·.1)

def family? (sig : Signature) (name : Name) : Option Family :=
  match sig.get? name with
  | some (.family f) => some f
  | _ => none

def ctor? (sig : Signature) (name : Name) : Option Ctor :=
  match sig.get? name with
  | some (.ctor c) => some c
  | _ => none

def function? (sig : Signature) (name : Name) : Option Function :=
  match sig.get? name with
  | some (.function f) => some f
  | _ => none

def type? (sig : Signature) (name : Name) : Option Term := (sig.get? name).map (·.type)

/-- The body of a function that may be unfolded: it is transparent, or listed. -/
def unfoldable? (sig : Signature) (unfold : List Name) (name : Name) : Option Term :=
  match sig.function? name with
  | some f => if f.transparent || unfold.contains name then f.body else none
  | none => none

/-- Add a global, or replace the one of the same name. -/
def insert (sig : Signature) (name : Name) (entry : Entry) : Signature :=
  if sig.contains name then
    { sig with
      entries := sig.entries.map fun old => if old.1 == name then (name, entry) else old }
  else
    { sig with entries := sig.entries ++ [(name, entry)] }

/-- Add constructors and then their family. -/
def addFamily (sig : Signature) (f : Family) (ctors : List Ctor) : Signature :=
  (ctors.foldl (fun sig c => sig.insert c.name (.ctor c)) sig).insert f.name (.family f)

def addFunction (sig : Signature) (f : Function) : Signature := sig.insert f.name (.function f)

def addPostulate (sig : Signature) (name : Name) (type : Term) : Signature :=
  sig.insert name (.postulate type)

/-- Copy the named entries of another signature. -/
def takeFrom (sig other : Signature) (names : List Name) : Signature :=
  names.foldl (fun sig name =>
    match other.get? name with
    | some entry => sig.insert name entry
    | none => sig) sig

/-- The signature of equality alone:

```
inductive Eq (A : Type) (x : A) : A -> Type { refl : Eq A x x }
``` -/
def prelude : Fresh Signature := do
  let a ← Var.fresh "A"
  let x ← Var.fresh "x"
  let params : Telescope := [(a, .univ), (x, .var a)]
  let indices ← Term.arrow (.var a) .univ
  let family : Family :=
    { name := Term.eqName, params, type := params.pis indices, ctors := [Term.reflName] }
  let ctor : Ctor :=
    { name := Term.reflName, family := Term.eqName, numParams := 2, numFields := 0,
      type := params.pis (Term.eq (.var a) (.var x) (.var x)) }
  return ({} : Signature).addFamily family [ctor]

end Signature
end Clausal
