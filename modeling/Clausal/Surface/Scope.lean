import Clausal.Signature
import Clausal.Surface.Tree
import Clausal.Text.EditDistance

/-!
# Name resolution

Surface terms become terms of the calculus.  A name stands for its innermost
binder, else for a local, else for a global of the signature.  Locals stand
for terms: a pattern variable for what it matched, an auxiliary for its lifted
definition applied to the variables around it.
-/

namespace Clausal.Surface

/-- Why a name cannot be resolved. -/
inductive ScopeError where
  | unbound (span : Span) (name : Name) (suggestion : Option Name)
  /-- The name is that of an auxiliary of another clause. -/
  | auxiliary (span : Span) (name : Name)
deriving Repr, Inhabited

/-- Names and the terms they stand for, the innermost first. -/
abbrev Locals := List (Name × Clausal.Term)

abbrev Resolve := ExceptT ScopeError Fresh

/-- What names are resolved against. -/
structure Scope where
  sig : Signature
  /-- Names of auxiliaries, which are told apart from unknown names. -/
  auxiliaries : List Name := []

namespace Scope

def lookup? (scope : Scope) (locals : Locals) (name : Name) : Option Clausal.Term :=
  match locals.find? fun entry => entry.1 == name with
  | some (_, t) => some t
  | none => if scope.sig.contains name then some (.global name) else none

/-- The name that was perhaps meant: locals are looked at before globals, and
outer locals before inner ones. -/
def suggest? (scope : Scope) (locals : Locals) (name : Name) : Option Name :=
  let candidates := (locals.map (·.1)).reverse ++ scope.sig.names
  Text.nearest name (candidates.filter fun c => !Name.isQualified c)

/-- Resolve one name. -/
def name (scope : Scope) (locals : Locals) (span : Span) (name : Name) :
    Resolve Clausal.Term :=
  match scope.lookup? locals name with
  | some t => return t
  | none =>
      if scope.auxiliaries.contains name then throw (.auxiliary span name)
      else throw (.unbound span name (scope.suggest? locals name))

/-- Bind names of one type, from left to right. -/
def bindNames (locals : Locals) (type : Clausal.Term) : List Ident → Fresh (Telescope × Locals)
  | [] => return ([], locals)
  | ident :: idents => do
      let v ← Var.fresh ident.name
      let (Γ, locals) ← bindNames ((ident.name, .var v) :: locals) type idents
      return ((v, type) :: Γ, locals)

mutual

/-- Resolve the names of a term. -/
def term (scope : Scope) (locals : Locals) : Term → Resolve Clausal.Term
  | .name span n => scope.name locals span n
  | .univ _ => return .univ
  | .ann _ t type => do
      let t ← term scope locals t
      let type ← term scope locals type
      return .ann t type
  | .arrow _ dom cod => do
      let dom ← term scope locals dom
      let cod ← term scope locals cod
      Clausal.Term.arrow dom cod
  | .pi _ ps body => do
      let (Γ, locals) ← params scope locals ps
      let body ← term scope locals body
      return Telescope.pis Γ body
  | .lam _ ps body => do
      let (Γ, locals) ← params scope locals ps
      let body ← term scope locals body
      return Telescope.lams Γ body
  | .app _ head arg => do
      let head ← term scope locals head
      let arg ← term scope locals arg
      return .app head arg
termination_by structural t => t

/-- Resolve parameters, and bind their names in what follows. -/
def params (scope : Scope) (locals : Locals) : List Param → Resolve (Telescope × Locals)
  | [] => return ([], locals)
  | p :: ps => do
      let (Γ, locals) ← param scope locals p
      let (Δ, locals) ← params scope locals ps
      return (Γ ++ Δ, locals)
termination_by structural ps => ps

def param (scope : Scope) (locals : Locals) : Param → Resolve (Telescope × Locals)
  | .mk names type => do
      let type ← term scope locals type
      bindNames locals type names
termination_by structural p => p

end

/-- The function type of parameters and a result type. -/
def funType (scope : Scope) (locals : Locals) (ps : List Param) (result : Term) :
    Resolve Clausal.Term := do
  let (Γ, locals) ← scope.params locals ps
  let result ← scope.term locals result
  return Telescope.pis Γ result

end Scope
end Clausal.Surface
