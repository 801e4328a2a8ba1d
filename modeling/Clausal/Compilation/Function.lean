import Clausal.Compilation.Split

/-!
# Compilation of definitions

A definition is compiled in steps:

1. its clauses become the rows of a matrix;
2. the rows are split into a tree, and at each leaf the right-hand side is
   resolved and checked; auxiliaries for inspections and local definitions are
   compiled on the way, lifted over the variables of their leaf;
3. the tree becomes a case tree, its equations and its elimination principle.

Every generated term is type checked.  Nothing is registered in the rule base
before the whole definition has compiled.
-/

namespace Clausal

/-- A function to compile: the definition itself or an auxiliary. -/
structure FunctionProblem where
  name : Name
  span : Span
  type : Term
  /-- The number of arguments that the rows match. -/
  arity : Nat
  rows : List Row
  /-- Names bound by enclosing clauses. -/
  locals : Surface.Locals
deriving Repr, Inhabited

namespace Compile

/-- Inaccessible patterns are what the other patterns force. -/
def checkForced (job : Job) (Γ : Telescope) (locals : Surface.Locals) :
    List Forced → Compile Unit
  | [] => return ()
  | f :: fs => do
      let scope ← scope job
      let found ← resolved (scope.term locals f.term)
      if ← liftM ((← env).convertible found f.value) then
        checkForced job Γ locals fs
      else
        throw (.inaccessible f.span Γ f.value found)

/-- An auxiliary of a leaf, lifted over its variables. -/
structure Auxiliary where
  name : Name
  type : Term
  /-- The number of its own arguments. -/
  arity : Nat
  definition : Surface.Definition
deriving Repr, Inhabited

/-- Declare the auxiliaries of a leaf, so that they can refer to each other. -/
def declareAuxiliaries (job : Job) (Γ : Telescope) :
    List Surface.Definition → Surface.Locals → Compile (List Auxiliary × Surface.Locals)
  | [], locals => return ([], locals)
  | d :: ds, locals => do
      let name ← liftedName job d.name.name
      let scope ← scope job
      let type ← resolved (scope.funType locals d.params d.type)
      checked (.typing d.type.span) ((← env).checkType Γ type)
      let arity := (Telescope.ofType type).1.length
      let lifted := Telescope.pis Γ type
      addFunction { name, type := lifted }
      let locals := (d.name.name, (Term.global name).apps (Telescope.args Γ)) :: locals
      let (rest, locals) ← declareAuxiliaries job Γ ds locals
      return (⟨name, lifted, arity, d⟩ :: rest, locals)

/-- Rows that nothing reaches are faults, or warnings. -/
def reportRedundant (job : Job) (rows : List Row) (reached : List Nat) : Compile Unit :=
  rows.zipIdx.forM fun (row, index) => do
    unless reached.contains index do
      if job.options.allowRedundant then
        modify fun w => { w with warnings := w.warnings ++ [.redundantClause row.span] }
      else
        throw (.redundantClause row.span)

/-- Turn a splitting tree into a function and generate what stands beside it. -/
def finish (job : Job) (p : FunctionProblem) (Γ : Telescope) (tree : SplitTree) :
    Compile CompiledFunction := do
  let term := Telescope.lams Γ tree.body
  checked (.illTyped p.name) ((← env).check [] term p.type)
  let function : Function :=
    { name := p.name, type := p.type, body := some term, transparent := job.transparent }
  addFunction function
  let equations ← attempt (Equation.generate (← get).sig p.name tree)
  let (elimination, sig) ← attempt (Elimination.derive (← get).sig p.name Γ tree)
  modify fun w => { w with sig }
  addFunction { function with eliminator := some elimination.name }
  return { name := p.name, type := p.type, transparent := job.transparent, term, tree, equations,
           elimination }

mutual

/-- Compile a function. -/
def function (job : Job) : (fuel : Nat) → FunctionProblem → Compile CompiledFunction
  | 0, _ => outOfFuel
  | fuel + 1, p => do
      if p.name != job.root then
        claim p.span p.name
      addFunction { name := p.name, type := p.type }
      let (Γ, goal) := Telescope.ofTypeUpTo p.arity p.type
      let problem : Problem :=
        { context := Γ, goal, args := Telescope.args Γ, locals := p.locals }
      let target : SplitTarget := { name := p.name, span := p.span, rows := p.rows }
      let (tree, reached) ← splitRows target (leaf job fuel) fuel problem
      reportRedundant job p.rows reached
      finish job p Γ tree

/-- The right-hand side of a row that matched. -/
def leaf (job : Job) : (fuel : Nat) → ReachedRow → Compile SplitTree
  | 0, _ => outOfFuel
  | fuel + 1, r => do
      let p := r.problem
      let site : LeafSite :=
        { clause := r.index, context := p.context, args := p.args, goal := p.goal }
      match r.row.rhs with
      | .absurd span =>
          match ← liftM ((← env).findEmpty p.context) with
          | some v => return .absurd p.context v p.args p.goal
          | none => throw (.typing span (.noEmptyVariable p.context))
      | .term body =>
          checkForced job p.context r.locals r.forced
          let locals ← auxiliaries job fuel p.context r.row.auxiliaries r.locals
          let scope ← scope job
          let term ← resolved (scope.term locals body)
          checked (.typing body.span) ((← env).check p.context term p.goal)
          return .leaf site term
      | .inspect scrut equation rows =>
          checkForced job p.context r.locals r.forced
          let locals ← auxiliaries job fuel p.context r.row.auxiliaries r.locals
          let (node, tree) ← inspection job fuel p locals r.row.span scrut equation rows
          return .inspect site node tree

/-- Declare and compile the auxiliaries of a leaf; the answer has their names. -/
def auxiliaries (job : Job) :
    (fuel : Nat) → Telescope → List Surface.Definition → Surface.Locals → Compile Surface.Locals
  | 0, _, _, _ => outOfFuel
  | fuel + 1, Γ, definitions, locals => do
      let (declared, locals) ← declareAuxiliaries job Γ definitions locals
      compileAuxiliaries job fuel Γ locals declared
      return locals

def compileAuxiliaries (job : Job) :
    (fuel : Nat) → Telescope → Surface.Locals → List Auxiliary → Compile Unit
  | 0, _, _, _ => outOfFuel
  | _ + 1, _, _, [] => return ()
  | fuel + 1, Γ, locals, a :: rest => do
      let rows ← attempt (ExceptT.mk (pure ((← get).sig.matrix a.arity a.definition.clauses)))
      let f ← function job fuel
        { name := a.name, span := a.definition.span, type := a.type,
          arity := Γ.length + a.arity, rows := rows.map (·.pad Γ.length 0), locals }
      addAuxiliary f
      compileAuxiliaries job fuel Γ locals rest

/-- Compile the inspection of a term: an auxiliary over the variables of the
leaf, the inspected value, and the equation between term and value. -/
def inspection (job : Job) :
    (fuel : Nat) → Problem → Surface.Locals → Span → Surface.Term → Option Surface.Ident →
      List Row → Compile (Inspection × SplitTree)
  | 0, _, _, _, _, _, _ => outOfFuel
  | fuel + 1, p, locals, span, scrut, equation, rows => do
      let Γ := p.context
      let scope ← scope job
      let term ← resolved (scope.term locals scrut)
      let type ← checked (.typing scrut.span) ((← env).synth Γ term)
      let scrutVar ← (Var.fresh "w" : Fresh Var)
      let equationVar ← (Var.fresh ((equation.map (·.name)).getD "h") : Fresh Var)
      let params : Telescope :=
        Γ ++ [(scrutVar, type), (equationVar, .eq type term (.var scrutVar))]
      let auxType := params.pis (p.goal.abstract term (.var scrutVar))
      checked (.typing scrut.span) ((← env).checkType [] auxType)
      let name ← inspectionName job
      let locals := match equation with
        | some ident => (ident.name, .var equationVar) :: locals
        | none => locals
      let f ← function job fuel
        { name, span, type := auxType, arity := params.length,
          rows := rows.map (·.pad Γ.length 1), locals }
      let call := (Term.global name).apps (Telescope.args Γ ++ [term, .refl type term])
      checked (.illTyped name) ((← env).check Γ call p.goal)
      addAuxiliary f
      return ({ function := name, scrut := term, scrutType := type, scrutVar, equationVar, call },
        f.tree)

end

/-- Compile a definition whose name is claimed. -/
def definition (decl : Declaration) (options : CompileOptions) : Compile CompiledDefinition := do
  let sig := (← get).sig
  let names ← attempt (ExceptT.mk (pure (Surface.auxiliaryNames decl.clauses)))
  let arity := (Telescope.ofType decl.type).1.length
  let rows ← attempt (ExceptT.mk (pure (sig.matrix arity decl.clauses)))
  let job : Job :=
    { root := decl.name, transparent := decl.transparent, auxiliaries := names, options }
  let main ← function job ({ sig : Env }).fuel
    { name := decl.name, span := decl.span, type := decl.type, arity, rows, locals := [] }
  let w ← get
  return { main, auxiliaries := w.auxiliaries, warnings := w.warnings }

end Compile

/-- Register the equations and the elimination principle of a function. -/
def RuleBase.register (base : RuleBase) (f : CompiledFunction) : RuleBase :=
  (base.append f.name (f.equations.map (·.rule))).setEliminator f.name
    (f.elimination.eliminator f.name)

/-- Register the functions of a definition whose names are held. -/
def RuleBase.registerHeld (base : RuleBase) (held : List Name) (d : CompiledDefinition) :
    RuleBase :=
  (d.functions.filter fun f => held.contains f.name).foldl register base

/-- Compile a definition against a signature that has its declared type.  If
that succeeds, it and its auxiliaries are registered; otherwise the rule base
stays as it was. -/
def compile (base : RuleBase) (sig : Signature) (decl : Declaration) (options : CompileOptions) :
    Eval (Except CompileError CompiledDefinition × RuleBase) := do
  match base.claim decl.name with
  | .error _ => return (.error (.alreadyCompiling decl.span decl.name), base)
  | .ok claimed =>
      let (result, w) ←
        (Compile.definition decl options).run.run { sig, base := claimed, held := [decl.name] }
      let registered := match result with
        | .ok d => w.base.registerHeld w.held d
        | .error _ => w.base
      return (result, registered.releaseAll w.held)

end Clausal
