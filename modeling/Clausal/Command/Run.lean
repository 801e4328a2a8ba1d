import Clausal.Command.Module
import Clausal.Goal.CaseSplit
import Clausal.Module.Elaboration
import Clausal.Surface.Report

/-!
# Commands on a module

Every command elaborates a module first and reports what is wrong with it.
After an error nothing else happens, unless errors are tolerated; the run
fails in either case.
-/

namespace Clausal.Command

structure Settings where
  /-- Go on with what compiled when a module has errors. -/
  allowErrors : Bool := false
  /-- Unused clauses are warnings rather than errors. -/
  allowRedundant : Bool := false
  /-- The width of printed terms and goals; lines are not broken without one. -/
  width : Option Nat := none
deriving Repr, Inhabited

/-- What to do with a module. -/
inductive Action where
  /-- Print the types of all compiled functions. -/
  | check
  /-- Print a compiled function and what was generated beside it. -/
  | describe (name : Name)
  /-- Simplify a goal with the rules of some functions. -/
  | simplify (goal : String) (names : List Name)
  /-- Split a goal by the cases of the function applied in a term. -/
  | caseSplit (goal target : String)
deriving Repr, Inhabited

inductive Status where
  | ok
  | failed
  /-- There was no module to work on. -/
  | unreadable
deriving DecidableEq, Repr, Inhabited

def Status.exitCode : Status → Nat
  | .ok => 0
  | .failed => 1
  | .unreadable => 1

/-- What a run leaves behind. -/
structure Outcome where
  status : Status
  output : String := ""
  notices : List Notice := []
deriving Repr, Inhabited

/-- Output and notices so far. -/
structure Transcript where
  output : String := ""
  notices : List Notice := []
deriving Repr, Inhabited

def Transcript.hasErrors (t : Transcript) : Bool :=
  t.notices.any fun n => n.diagnostic.severity.isError

/-- A run writes a transcript and may stop early, in failure. -/
abbrev Run := OptionT (StateT Transcript Eval)

namespace Run

def stop {α : Type} : Run α := failure

def eval {α : Type} (x : Eval α) : Run α := liftM x

def emit (line : String) : Run Unit :=
  modify fun t => { t with output := t.output ++ line ++ "\n" }

def notify (source : Option Text.Source) (diagnostic : Diagnostic) : Run Unit :=
  modify fun t => { t with notices := t.notices ++ [{ source, diagnostic }] }

/-- Report a fault and stop. -/
def refuse {α : Type} (source : Option Text.Source) (diagnostic : Diagnostic) : Run α := do
  notify source diagnostic
  stop

end Run

/-- `name : type` or `name = term`, broken before the term if it does not fit. -/
def declaration (name : Name) (relation : String) (t : Term) : Print Doc := do
  let t ← Print.term .top t
  return .concat
    [.text name, .space, .text relation, .group (.nest Print.indent (.append .line t))]

/-- A function, its body, its equations and its elimination principle, printed
together. -/
def description (f : CompiledFunction) : Print (List Doc) := do
  let type ← declaration f.name ":" f.type
  let term ← declaration f.name "=" f.term
  let equations ← f.equations.mapM fun e => declaration e.name ":" e.type
  let elimination ← declaration f.elimination.name ":" f.elimination.type
  return type :: term :: equations ++ [elimination]

/-- The lines of a goal: its hypotheses and then its type. -/
def goalLines (width : Option Nat) (indent : Nat) (goal : Goal) : List String :=
  let margin := "".pushn ' ' indent
  Print.within goal.context do
    let entries ← Print.renderTelescope goal.context
    let type ← Print.term .top goal.type
    let conclusion := Doc.concat [.text (margin ++ "|-"), .space, type]
    return entries.map (margin ++ ·) ++ [conclusion.render width]

/-- The line above a subgoal. -/
def subgoalTitle (number : Nat) (s : Subgoal) : String :=
  if s.absurd then s!"subgoal {number} (absurd):"
  else if s.closed then s!"subgoal {number} (closed):"
  else s!"subgoal {number}:"

namespace Run

def emitDoc (settings : Settings) (doc : Doc) : Run Unit := emit (doc.render settings.width)

def emitGoal (settings : Settings) (indent : Nat) (goal : Goal) : Run Unit :=
  (goalLines settings.width indent goal).forM emit

/-- Elaborate a module and report its faults. -/
def elaborateModule (settings : Settings) (source : Text.Source) : Run Elaboration := do
  let parsed := Surface.parseModule source.text
  parsed.errors.forM fun error => notify source error.diagnostic
  let options : CompileOptions := { allowRedundant := settings.allowRedundant }
  let e ← eval (elaborate {} parsed.items options)
  e.messages.forM fun message => notify source message.diagnostic
  if (← get).hasErrors && !settings.allowErrors then
    stop
  return e

/-- Parse and resolve a term that may refer to the variables of a context. -/
def elaborateTerm (sig : Signature) (Γ : Telescope) (source : Text.Source) :
    Run (Span × Term) := do
  let (term?, errors) := Surface.parseTerm source.text
  errors.forM fun error => notify source error.diagnostic
  match term? with
  | none => stop
  | some term =>
      let scope : Surface.Scope := { sig }
      let locals : Surface.Locals := (Γ.map fun entry => (entry.1.name, .var entry.1)).reverse
      match ← eval (liftM (m := Fresh) (scope.term locals term).run) with
      | .ok core => return (term.span, core)
      | .error error => refuse source (Message.ofScope error).diagnostic

/-- Parse, resolve and check a goal. -/
def elaborateGoal (sig : Signature) (source : Text.Source) : Run Goal := do
  let (span, type) ← elaborateTerm sig [] source
  let env : Env := { sig }
  match ← eval (env.checkType [] type).run with
  | .ok () => return .ofType type
  | .error error => refuse source (Message.typing span error).diagnostic

def goalSource (text : String) : Text.Source := { name := "<GOAL>", text }

def targetSource (text : String) : Text.Source := { name := "<TARGET>", text }

def check (e : Elaboration) (settings : Settings) : Run Unit :=
  e.functions.forM fun f => emitDoc settings (Print.fresh (declaration f.name ":" f.type))

def describe (e : Elaboration) (settings : Settings) (name : Name) : Run Unit := do
  match e.functions.find? fun f => f.name == name with
  | some f => (Print.fresh (description f)).forM (emitDoc settings)
  | none => refuse none (.error ("no compiled definition named " ++ quoted name))

def simplify (e : Elaboration) (settings : Settings) (goal : String) (names : List Name) :
    Run Unit := do
  let goal ← elaborateGoal e.sig (goalSource goal)
  (names.filter fun name => !e.sig.contains name).forM fun name =>
    notify none { severity := .warning, message := "unknown definition " ++ quoted name }
  let s ← eval (goal.simplify e.base e.sig names)
  emitGoal settings 0 s.goal
  if s.closed then
    emit "closed by reflexivity"

def caseSplit (e : Elaboration) (settings : Settings) (goal target : String) : Run Unit := do
  let goal ← elaborateGoal e.sig (goalSource goal)
  let (_, target) ← elaborateTerm e.sig goal.context (targetSource target)
  match ← eval (goal.caseSplit e.base e.sig target).run with
  | .error error => refuse none error.diagnostic
  | .ok split =>
      split.subgoals.zipIdx.forM fun (s, index) => do
        emit (subgoalTitle (index + 1) s)
        emitGoal settings 2 s.goal

def action (e : Elaboration) (settings : Settings) : Action → Run Unit
  | .check => check e settings
  | .describe name => describe e settings name
  | .simplify goal names => simplify e settings goal names
  | .caseSplit goal target => caseSplit e settings goal target

end Run

/-- Run a command on a module. -/
def run (settings : Settings) (source : Text.Source) (action : Action) : Eval Outcome := do
  let whole : Run Unit := do
    let e ← Run.elaborateModule settings source
    Run.action e settings action
  let (finished, t) ← whole.run.run {}
  let status := if finished.isSome && !t.hasErrors then .ok else .failed
  return { status, output := t.output, notices := t.notices }

/-- Run a command on what was read for a module of the given name. -/
def runOn (settings : Settings) (name : String) (read : Except ReadError ByteArray)
    (action : Action) : Eval Outcome :=
  match read.bind (decodeSource name) with
  | .ok source => run settings source action
  | .error error => return { status := .unreadable, notices := [error.notice name] }

end Clausal.Command
