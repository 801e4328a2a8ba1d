import Clausal.Surface.Scope
import Clausal.Typing.Error

/-!
# Why a definition does not compile
-/

namespace Clausal

inductive CompileError where
  /-- A clause or a constructor pattern has the wrong number of patterns. -/
  | arity (span : Span) (expected found : Nat)
  /-- A name is bound twice in a clause, or two auxiliaries share a name. -/
  | duplicateBinding (span previous : Span) (name : Name)
  /-- Some arguments are covered by no clause; they are given in `context`. -/
  | nonExhaustive (span : Span) (function : Name) (context : Telescope) (missing : List Term)
  | redundantClause (span : Span)
  /-- An auxiliary was used outside of the clause that defines it. -/
  | unboundAuxiliary (span : Span) (name : Name)
  | unboundName (span : Span) (name : Name) (suggestion : Option Name)
  | notAConstructor (span : Span) (name : Name)
  | missingListNotation (span : Span)
  /-- An inaccessible pattern is not what the other patterns force. -/
  | inaccessible (span : Span) (context : Telescope) (expected found : Term)
  /-- A term of the definition is ill-typed. -/
  | typing (span : Span) (error : TypeError)
  /-- A generated term is ill-typed. -/
  | illTyped (function : Name) (error : TypeError)
  | alreadyCompiling (span : Span) (name : Name)
deriving Repr, Inhabited

namespace CompileError

def ofScope : Surface.ScopeError → CompileError
  | .unbound span name suggestion => .unboundName span name suggestion
  | .auxiliary span name => .unboundAuxiliary span name

/-- The note that offers a name for an unknown one. -/
def suggestionNotes (suggestion : Option Name) : List String :=
  match suggestion with
  | some name => ["help: did you mean " ++ quoted name ++ "?"]
  | none => []

/-- What is not covered, and the variables it speaks of. -/
def missingNotes (function : Name) (Γ : Telescope) (missing : List Term) : List String :=
  Print.within Γ do
    let pattern ← Print.render ((Term.global function).apps missing)
    let first := "patterns not covered: " ++ quoted pattern
    if Γ.isEmpty then
      return [first]
    else
      let entries ← Print.renderTelescope Γ
      return [first, "in the context " ++ quoted (", ".intercalate entries)]

def diagnostic : CompileError → Diagnostic
  | .arity span expected found =>
      .error "mismatched number of patterns"
        [.here span s!"expected {expected} patterns, found {found}"]
  | .duplicateBinding span previous name =>
      .error (quoted name ++ " is bound more than once")
        [.here span "rebound here", .related previous "first bound here"]
  | .nonExhaustive span function Γ missing =>
      .error ("non-exhaustive patterns in " ++ quoted function)
        [.here span "patterns not covered"] (missingNotes function Γ missing)
  | .redundantClause span =>
      .error "redundant clause" [.here span "this clause is never used"]
  | .unboundAuxiliary span name =>
      .error ("auxiliary " ++ quoted name ++ " is not in scope")
        [.here span "used outside of its clause"]
        ["auxiliaries are only visible in the clause that defines them"]
  | .unboundName span name suggestion =>
      .error ("cannot find " ++ quoted name ++ " in scope") [.here span "unbound name"]
        (suggestionNotes suggestion)
  | .notAConstructor span name =>
      .error (quoted name ++ " is not a constructor") [.here span "expected a constructor"]
  | .missingListNotation span =>
      .error "list pattern without list notation" [.here span]
        ["declare one with `notation list nil cons;`"]
  | .inaccessible span Γ expected found =>
      let (expected, found) := Print.within Γ do
        let expected ← Print.render expected
        let found ← Print.render found
        return (expected, found)
      .error "inaccessible pattern does not match the forced value"
        [.here span ("expected " ++ quoted expected)] ["found " ++ quoted found]
  | .typing span error => .error error.message [.here span]
  | .illTyped function error =>
      .bug ("compiled " ++ quoted function ++ " to an ill-typed term") []
        [error.message, Diagnostic.bugReportNote]
  | .alreadyCompiling span name =>
      .error (quoted name ++ " is already being compiled") [.here span]

end CompileError
end Clausal
