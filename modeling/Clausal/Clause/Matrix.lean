import Clausal.Clause.Row
import Clausal.Compilation.Error

/-!
# From clauses to a matrix

The shape of every clause is checked before anything is split: the number of
patterns, the constructors and their fields, and that no name is bound twice
along a clause and the clauses of its inspections.
-/

namespace Clausal

/-- The first of `idents` whose name was bound before it, in `seen` or among
`idents`, with the place of its first binding. -/
def firstRebound? : (seen : List Surface.Ident) → List Surface.Ident → Option CompileError
  | _, [] => none
  | seen, ident :: idents =>
      match seen.find? fun other => other.name == ident.name with
      | some previous => some (.duplicateBinding ident.span previous.span ident.name)
      | none => firstRebound? (seen ++ [ident]) idents

namespace Signature

/-- The constructor that was perhaps meant. -/
def suggestCtor? (sig : Signature) (name : Name) : Option Name :=
  Text.nearest name (sig.names.filter fun c => (sig.ctor? c).isSome)

/-- A list pattern spelled out.  Each node covers its element and what follows. -/
def listPattern (nil cons : Name) (span : Span) (elems : List Pattern) : Pattern :=
  elems.foldr (fun head tail => .ctor (head.span.merge tail.span) cons [head, tail])
    (.ctor span nil [])

mutual

/-- Resolve the names of a pattern. -/
def pattern (sig : Signature) : Surface.Pattern → Except CompileError Pattern
  | .name span name =>
      match sig.ctor? name with
      | some ctor =>
          if ctor.numFields = 0 then .ok (.ctor span name [])
          else .error (.arity span ctor.numFields 0)
      | none => .ok (.var span name)
  | .placeholder span => .ok (.wildcard span)
  | .ctor span head args =>
      match sig.ctor? head.name with
      | some ctor =>
          if ctor.numFields = args.length then do
            let args ← patterns sig args
            return .ctor span head.name args
          else .error (.arity span ctor.numFields args.length)
      | none =>
          if sig.contains head.name then .error (.notAConstructor head.span head.name)
          else .error (.unboundName head.span head.name (sig.suggestCtor? head.name))
  | .inaccessible span term => .ok (.inaccessible span term)
  | .list span elems =>
      match sig.listNotation with
      | some (nil, cons) => do
          let elems ← patterns sig elems
          return listPattern nil cons span elems
      | none => .error (.missingListNotation span)
termination_by structural p => p

def patterns (sig : Signature) : List Surface.Pattern → Except CompileError (List Pattern)
  | [] => .ok []
  | p :: ps => do
      let p ← pattern sig p
      let ps ← patterns sig ps
      return p :: ps
termination_by structural ps => ps

end

/-- The patterns of a clause, when it has as many as it should and binds no
name that is bound around it. -/
def clausePatterns (sig : Signature) (arity : Nat) (inherited : List Surface.Ident)
    (span : Span) (ps : List Surface.Pattern) : Except CompileError (List Pattern) :=
  if ps.length = arity then do
    let ps ← sig.patterns ps
    match firstRebound? inherited (patternsBindings ps) with
    | some error => .error error
    | none => return ps
  else
    .error (.arity span arity ps.length)

mutual

/-- The row of a clause. -/
def row (sig : Signature) (arity : Nat) (inherited : List Surface.Ident) :
    Surface.Clause → Except CompileError Row
  | .mk span ps rhs auxiliaries => do
      let ps ← sig.clausePatterns arity inherited span ps
      let rhs ← rowRhs sig (inherited ++ patternsBindings ps) rhs
      return .mk span ps rhs auxiliaries
termination_by structural c => c

def rowRhs (sig : Signature) (bound : List Surface.Ident) :
    Surface.Rhs → Except CompileError RowRhs
  | .term body => .ok (.term body)
  | .absurd span => .ok (.absurd span)
  | .inspect scrut equation clauses => do
      let rows ← rows sig 1 (bound ++ equation.toList) clauses
      return .inspect scrut equation rows
termination_by structural r => r

/-- The rows of clauses that all have `arity` patterns. -/
def rows (sig : Signature) (arity : Nat) (inherited : List Surface.Ident) :
    List Surface.Clause → Except CompileError (List Row)
  | [] => .ok []
  | c :: cs => do
      let r ← row sig arity inherited c
      let rs ← rows sig arity inherited cs
      return r :: rs
termination_by structural cs => cs

end

/-- The matrix of the clauses of a function of `arity` arguments. -/
def matrix (sig : Signature) (arity : Nat) (clauses : List Surface.Clause) :
    Except CompileError (List Row) :=
  sig.rows arity [] clauses

end Signature

namespace Surface

mutual

/-- The names of the auxiliaries of a clause at any depth: each before those in
its own clauses, and those of the clause before those of an inspection. -/
def Clause.auxiliaryIdents : Clause → List Ident
  | .mk _ _ rhs auxiliaries => definitionsIdents auxiliaries ++ rhs.auxiliaryIdents
termination_by structural c => c

def Rhs.auxiliaryIdents : Rhs → List Ident
  | .term _ => []
  | .inspect _ _ clauses => clausesIdents clauses
  | .absurd _ => []
termination_by structural r => r

def Definition.auxiliaryIdents : Definition → List Ident
  | .mk _ name _ _ _ clauses => name :: clausesIdents clauses
termination_by structural d => d

def clausesIdents : List Clause → List Ident
  | [] => []
  | c :: cs => c.auxiliaryIdents ++ clausesIdents cs
termination_by structural cs => cs

def definitionsIdents : List Definition → List Ident
  | [] => []
  | d :: ds => d.auxiliaryIdents ++ definitionsIdents ds
termination_by structural ds => ds

end

/-- The names of all auxiliaries in some clauses, which must differ. -/
def auxiliaryNames (clauses : List Clause) : Except CompileError (List Name) :=
  let idents := clausesIdents clauses
  match firstRebound? [] idents with
  | some error => .error error
  | none => .ok (idents.map (·.name))

end Surface
end Clausal
