import Clausal.Compilation.Function
import Clausal.Module.Message
import Clausal.Module.Order

/-!
# Elaboration of modules

Families, constants, rules and the declared types of definitions are taken in
the order of the module.  The clauses of definitions are compiled after that,
level by level; the definitions of a level do not see each other's bodies.  A
fault in an item is reported and the rest goes on without it; a definition
whose clauses do not compile stays as a function without a body.
-/

namespace Clausal

/-- What is known of a module so far. -/
structure ModuleState where
  sig : Signature
  base : RuleBase
  /-- Where the names of items and constructors were defined. -/
  places : List (Name × Span) := []
  messages : List Message := []
deriving Repr, Inhabited

abbrev Elaborate := ExceptT Message (StateT ModuleState Eval)

/-- The outcome for a module. -/
structure Elaboration where
  sig : Signature
  base : RuleBase
  /-- The definitions that compiled, in the order they did. -/
  definitions : List CompiledDefinition
  messages : List Message
deriving Repr, Inhabited

/-- All compiled functions, each definition followed by its auxiliaries. -/
def Elaboration.functions (e : Elaboration) : List CompiledFunction :=
  e.definitions.flatMap (·.functions)

namespace Elaborate

def env : Elaborate Env := do
  return { sig := (← get).sig }

/-- Resolve names against the items so far. -/
def resolved {α : Type} (r : Surface.Scope → Surface.Resolve α) : Elaborate α := do
  let scope : Surface.Scope := { sig := (← get).sig }
  match ← liftM (m := Fresh) (r scope).run with
  | .ok a => return a
  | .error error => throw (.ofScope error)

/-- A closed type must be a type. -/
def checkType (span : Span) (type : Term) : Elaborate Unit := do
  match ← liftM (m := Eval) ((← env).checkType [] type).run with
  | .ok () => return ()
  | .error error => throw (.typing span error)

/-- Take a name for an item. -/
def define (ident : Surface.Ident) : Elaborate Unit := do
  let s ← get
  let previous := (s.places.find? fun entry => entry.1 == ident.name).map (·.2)
  if s.sig.contains ident.name || previous.isSome then
    throw (.duplicateDefinition ident.span ident.name previous)
  else
    set { s with places := s.places ++ [(ident.name, ident.span)] }

def report (message : Message) : Elaborate Unit :=
  modify fun s => { s with messages := s.messages ++ [message] }

/-- Run something and report its fault, if it has one. -/
def reporting {α : Type} (x : Elaborate α) : Elaborate (Option α) :=
  tryCatch (some <$> x) fun message => do
    report message
    return none

/-- A constructor's target is its family, applied to the family's parameters
and as many indices as the family has. -/
def isTarget (family : Family) (numIndices : Nat) (target : Term) : Bool :=
  match target.globalSpine? with
  | some (head, args) =>
      head == family.name && args.length == family.params.length + numIndices &&
        (args.zip (Telescope.vars family.params)).all fun (arg, v) => arg.var? == some v
  | none => false

def constructor (family : Family) (numIndices : Nat) (locals : Surface.Locals)
    (c : Surface.CtorDecl) : Elaborate Ctor := do
  let type ← resolved fun scope => scope.term locals c.type
  let whole := family.params.pis type
  checkType c.type.span whole
  let (fields, target) ← liftM (m := Eval) ((← env).telescope type)
  if isTarget family numIndices target then
    define c.name
    return { name := c.name.name, family := family.name, numParams := family.params.length,
             numFields := fields.length, type := whole }
  else
    throw (.invalidCtorType c.type.span c.name.name family.name)

/-- Add a family.  Its constructors may refer to it; those with faults are
left out. -/
def family (f : Surface.Family) : Elaborate Unit := do
  let (params, type, locals) ← resolved fun scope => do
    let (params, locals) ← scope.params [] f.params
    let type ← scope.term locals f.type
    return (params, type, locals)
  let whole := params.pis type
  checkType f.type.span whole
  let (indices, sort) ← liftM (m := Eval) ((← env).telescope type)
  if sort != .univ then
    throw (.invalidFamilyType f.type.span f.name.name)
  define f.name
  let empty : Family := { name := f.name.name, params, type := whole, ctors := [] }
  modify fun s => { s with sig := s.sig.addFamily empty [] }
  let ctors ← f.ctors.filterMapM fun c =>
    reporting (constructor empty indices.length locals c)
  modify fun s =>
    { s with sig := s.sig.addFamily { empty with ctors := ctors.map (·.name) } ctors }

def postulate (ident : Surface.Ident) (type : Surface.Term) : Elaborate Unit := do
  let core ← resolved fun scope => scope.term [] type
  checkType type.span core
  define ident
  modify fun s => { s with sig := s.sig.addPostulate ident.name core }

/-- A type as a rule: an equation whose left side applies a function. -/
def rule? (sig : Signature) (name : Name) (type : Term) : Option (Name × Rule) :=
  let (context, body) := Telescope.ofType type
  match body.globalSpine? with
  | some (head, [type, lhs, rhs]) =>
      if head == Term.eqName then
        match lhs.globalSpine? with
        | some (function, _) =>
            if (sig.function? function).isSome then
              some (function, { name, context, type, lhs, rhs })
            else none
        | none => none
      else none
  | _ => none

/-- Add a rule that is taken on trust. -/
def trustedRule (span : Span) (ident : Surface.Ident) (type : Surface.Term) :
    Elaborate Unit := do
  let core ← resolved fun scope => scope.term [] type
  checkType type.span core
  match rule? (← get).sig ident.name core with
  | none => throw (.invalidRule span ident.name)
  | some (function, rule) =>
      define ident
      modify fun s =>
        { s with sig := s.sig.addPostulate ident.name core, base := s.base.append function [rule] }

/-- Constructors fit for list patterns: of one family, without fields and with
two fields. -/
def isListNotation (sig : Signature) (nil cons : Name) : Bool :=
  match sig.ctor? nil, sig.ctor? cons with
  | some nil, some cons =>
      nil.family == cons.family && nil.numFields == 0 && cons.numFields == 2
  | _, _ => false

def listNotation (span : Span) (nil cons : Name) : Elaborate Unit := do
  let s ← get
  if isListNotation s.sig nil cons then
    set { s with sig := { s.sig with listNotation := some (nil, cons) } }
  else
    throw (.invalidListNotation span)

/-- Add the declared type of a definition. -/
def declare (d : Surface.Definition) : Elaborate Term := do
  let type ← resolved fun scope => scope.funType [] d.params d.type
  checkType d.type.span type
  define d.name
  modify fun s =>
    { s with
      sig := s.sig.addFunction { name := d.name.name, type, transparent := d.transparent } }
  return type

/-- Take an item; a definition is declared and returned for compilation. -/
def item : Surface.Item → Elaborate (Option (Surface.Definition × Term))
  | .family f => do
      family f
      return none
  | .definition d => do
      let type ← declare d
      return some (d, type)
  | .postulate _ name type => do
      postulate name type
      return none
  | .rule span name type => do
      trustedRule span name type
      return none
  | .listNotation span nil cons => do
      listNotation span nil.name cons.name
      return none

/-- Compile a definition against a signature, and keep the rule base. -/
def compileDeclared (sig : Signature) (options : CompileOptions) (d : Surface.Definition)
    (type : Term) : Elaborate (Except CompileError CompiledDefinition) := do
  let decl : Declaration :=
    { name := d.name.name, span := d.span, type, transparent := d.transparent,
      clauses := d.clauses }
  let (result, base) ← liftM (m := Eval) (compile (← get).base sig decl options)
  modify fun s => { s with base }
  return result

/-- Commit a compiled definition, or report why there is none. -/
def settle : Except CompileError CompiledDefinition → Elaborate (Option CompiledDefinition)
  | .ok d => do
      modify fun s =>
        { s with
          sig := s.sig.commitDefinition d
          messages := s.messages ++ d.warnings.map .warning }
      return some d
  | .error error => do
      report (.compile error)
      return none

/-- Compile the definitions of a level against the same signature. -/
def compileLevel (options : CompileOptions) (level : List (Surface.Definition × Term)) :
    Elaborate (List CompiledDefinition) := do
  let sig := (← get).sig
  let results ← level.mapM fun (d, type) => compileDeclared sig options d type
  results.filterMapM settle

/-- Compile declared definitions in the order of their levels. -/
def compileAll (options : CompileOptions) (declared : List (Surface.Definition × Term)) :
    Elaborate (List CompiledDefinition) := do
  let levels := (Surface.dependencyGraph (declared.map (·.1))).levels
  let compiled ← levels.mapM fun level =>
    compileLevel options (level.filterMap fun i => declared[i]?)
  return compiled.flatten

/-- Take all items, then compile the definitions. -/
def module (options : CompileOptions) (items : List Surface.Item) :
    Elaborate (List CompiledDefinition) := do
  let declared ← items.filterMapM fun i => do
    return (← reporting (item i)).join
  compileAll options declared

end Elaborate

/-- Elaborate the items of a module against equality alone. -/
def elaborate (base : RuleBase) (items : List Surface.Item) (options : CompileOptions) :
    Eval Elaboration := do
  let sig ← Signature.prelude
  let (result, s) ← (Elaborate.module options items).run.run { sig, base }
  let definitions := match result with
    | .ok definitions => definitions
    | .error _ => []
  return { sig := s.sig, base := s.base, definitions, messages := s.messages }

end Clausal
