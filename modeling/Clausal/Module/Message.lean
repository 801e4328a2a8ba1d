import Clausal.Compilation.Error

/-!
# Messages about a module
-/

namespace Clausal

inductive Message where
  | unboundName (span : Span) (name : Name) (suggestion : Option Name)
  | duplicateDefinition (span : Span) (name : Name) (previous : Option Span)
  /-- The type of a family does not end in the type of types. -/
  | invalidFamilyType (span : Span) (name : Name)
  /-- The type of a constructor does not end in its family at its parameters. -/
  | invalidCtorType (span : Span) (ctor family : Name)
  | invalidRule (span : Span) (name : Name)
  | invalidListNotation (span : Span)
  | typing (span : Span) (error : TypeError)
  | compile (error : CompileError)
  /-- A fault that was tolerated. -/
  | warning (error : CompileError)
deriving Repr, Inhabited

namespace Message

def ofScope : Surface.ScopeError → Message
  | .unbound span name suggestion => .unboundName span name suggestion
  | .auxiliary span name => .unboundName span name none

def diagnostic : Message → Diagnostic
  | .unboundName span name suggestion =>
      .error ("cannot find " ++ quoted name ++ " in scope") [.here span "unbound name"]
        (CompileError.suggestionNotes suggestion)
  | .duplicateDefinition span name previous =>
      .error ("the name " ++ quoted name ++ " is defined multiple times")
        (.here span "redefined here" ::
          previous.toList.map fun place => .related place "previous definition here")
  | .invalidFamilyType span name =>
      .error ("invalid type for inductive family " ++ quoted name)
        [.here span "expected a type ending in `Type`"]
  | .invalidCtorType span ctor family =>
      .error ("invalid type for constructor " ++ quoted ctor)
        [.here span ("expected a type ending in " ++ quoted family)]
        ["the parameters of " ++ quoted family ++ " must be passed unchanged"]
  | .invalidRule span name =>
      .error ("invalid rewrite rule " ++ quoted name) [.here span]
        ["expected a type of the form `(xs : Δ) -> Eq A (f ps) rhs`, where `f` is a definition"]
  | .invalidListNotation span =>
      .error "invalid list notation" [.here span]
        ["expected a constructor with no fields and a constructor with two fields of the same "
          ++ "family"]
  | .typing span error => .error error.message [.here span]
  | .compile error => error.diagnostic
  | .warning error => { error.diagnostic with severity := .warning }

end Message
end Clausal
