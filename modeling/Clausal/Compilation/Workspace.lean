import Clausal.Compilation.Elimination

/-!
# The state of a compilation

What a compiled definition is, and the monad in which definitions are compiled.
The working signature grows with every auxiliary, and later steps see it as it
then is.
-/

namespace Clausal

/-- A function and what is generated beside it. -/
structure CompiledFunction where
  name : Name
  type : Term
  transparent : Bool
  /-- The body as a function of the arguments. -/
  term : Term
  tree : SplitTree
  equations : List Equation
  elimination : Elimination
deriving Repr, Inhabited

/-- A definition and its auxiliaries, in the order they were compiled. -/
structure CompiledDefinition where
  main : CompiledFunction
  auxiliaries : List CompiledFunction
  /-- Faults that were tolerated. -/
  warnings : List CompileError
deriving Repr, Inhabited

/-- The definition followed by its auxiliaries. -/
def CompiledDefinition.functions (d : CompiledDefinition) : List CompiledFunction :=
  d.main :: d.auxiliaries

/-- Add a function and what was generated beside it. -/
def Signature.commit (sig : Signature) (f : CompiledFunction) : Signature :=
  let sig := sig.addFunction
    { name := f.name, type := f.type, body := some f.term, transparent := f.transparent,
      eliminator := some f.elimination.name }
  let sig := f.equations.foldl (fun sig e =>
    sig.addFunction { name := e.name, type := e.type, body := some e.proof }) sig
  sig.addFunction
    { name := f.elimination.name, type := f.elimination.type, body := some f.elimination.term }

/-- Add a definition, its auxiliaries first. -/
def Signature.commitDefinition (sig : Signature) (d : CompiledDefinition) : Signature :=
  (d.auxiliaries.foldl commit sig).commit d.main

/-- A definition with its declared type resolved. -/
structure Declaration where
  name : Name
  span : Span
  type : Term
  transparent : Bool
  clauses : List Surface.Clause
deriving Repr, Inhabited

structure CompileOptions where
  /-- Unused clauses are warnings rather than errors. -/
  allowRedundant : Bool := false
deriving Repr, Inhabited

/-- What stays the same while a definition is compiled. -/
structure Job where
  root : Name
  transparent : Bool
  /-- The names of all auxiliaries of the definition. -/
  auxiliaries : List Name
  options : CompileOptions
deriving Repr, Inhabited

/-- What changes while a definition is compiled. -/
structure Workspace where
  /-- The signature with the auxiliaries compiled so far. -/
  sig : Signature
  base : RuleBase
  /-- The names claimed by this compilation. -/
  held : List Name
  /-- How often each auxiliary name has been lifted. -/
  lifted : List Name := []
  inspections : Nat := 0
  auxiliaries : List CompiledFunction := []
  warnings : List CompileError := []
deriving Repr, Inhabited

abbrev Compile := ExceptT CompileError (StateT Workspace Eval)

namespace Compile

def outOfFuel {α : Type} : Compile α := ExceptT.mk fun _ => Clausal.outOfFuel

def env : Compile Env := do
  return { sig := (← get).sig }

def attempt {α : Type} (a : Attempt α) : Compile α := ExceptT.mk (liftM a.run)

/-- Type check, and report a type error as a fault of the definition. -/
def checked {α : Type} (report : TypeError → CompileError) (c : Check α) : Compile α :=
  attempt (ExceptT.adapt report c)

/-- Resolve names of the definition. -/
def resolved {α : Type} (r : Surface.Resolve α) : Compile α :=
  attempt (ExceptT.mk do
    match ← (r.run : Fresh (Except Surface.ScopeError α)) with
    | .ok a => return .ok a
    | .error error => return .error (.ofScope error))

def scope (job : Job) : Compile Surface.Scope := do
  return { sig := (← get).sig, auxiliaries := job.auxiliaries }

def addFunction (f : Function) : Compile Unit :=
  modify fun w => { w with sig := w.sig.addFunction f }

def addAuxiliary (f : CompiledFunction) : Compile Unit :=
  modify fun w => { w with auxiliaries := w.auxiliaries ++ [f] }

/-- Claim the name of an auxiliary. -/
def claim (span : Span) (name : Name) : Compile Unit := do
  let w ← get
  match w.base.claim name with
  | .ok base => set { w with base, held := name :: w.held }
  | .error _ => throw (.alreadyCompiling span name)

/-- The name of a lifted auxiliary.  A clause can settle several leaves, and
each gets a copy of its own. -/
def liftedName (job : Job) (name : Name) : Compile Name := do
  let w ← get
  set { w with lifted := name :: w.lifted }
  let copies := w.lifted.count name
  let base := Name.qualify job.root name
  return if copies = 0 then base else Name.qualify base (toString (copies + 1))

/-- The name of the auxiliary of the next inspection. -/
def inspectionName (job : Job) : Compile Name := do
  let w ← get
  set { w with inspections := w.inspections + 1 }
  return Name.qualify job.root s!"with{w.inspections + 1}"

end Compile

end Clausal
