import Clausal.Surface.Tree

/-!
# Rows of a clause matrix

Clauses whose names are resolved: a name in a pattern is a constructor or a
variable, constructors have all their fields, and list patterns are spelled
out.
-/

namespace Clausal

/-- Patterns.  The parameters of a constructor's family are left out. -/
inductive Pattern where
  | wildcard (span : Span)
  | var (span : Span) (name : Name)
  | ctor (span : Span) (name : Name) (args : List Pattern)
  /-- A term that the other patterns force. -/
  | inaccessible (span : Span) (term : Surface.Term)
deriving Repr, Inhabited

def Pattern.span : Pattern → Span
  | .wildcard span | .var span _ | .ctor span _ _ | .inaccessible span _ => span

mutual

/-- The variables of a pattern, from left to right. -/
def Pattern.bindings : Pattern → List Surface.Ident
  | .wildcard _ => []
  | .var span name => [⟨span, name⟩]
  | .ctor _ _ args => patternsBindings args
  | .inaccessible _ _ => []
termination_by structural p => p

/-- The variables of patterns, from left to right. -/
def patternsBindings : List Pattern → List Surface.Ident
  | [] => []
  | p :: ps => p.bindings ++ patternsBindings ps
termination_by structural ps => ps

end

mutual

/-- A row of a clause matrix. -/
inductive Row where
  | mk (span : Span) (patterns : List Pattern) (rhs : RowRhs)
      (auxiliaries : List Surface.Definition)

inductive RowRhs where
  | term (body : Surface.Term)
  /-- The inner rows have one pattern each, for the value of the inspected term. -/
  | inspect (scrut : Surface.Term) (equation : Option Surface.Ident) (rows : List Row)
  | absurd (span : Span)

end

deriving instance Repr, Inhabited for RowRhs
deriving instance Repr, Inhabited for Row

namespace Row

def span : Row → Span
  | .mk span _ _ _ => span

def patterns : Row → List Pattern
  | .mk _ patterns _ _ => patterns

def rhs : Row → RowRhs
  | .mk _ _ rhs _ => rhs

def auxiliaries : Row → List Surface.Definition
  | .mk _ _ _ auxiliaries => auxiliaries

/-- Add patterns for parameters that the clause does not speak of. -/
def pad (row : Row) (before after : Nat) : Row :=
  let blank := Pattern.wildcard row.span
  .mk row.span (List.replicate before blank ++ row.patterns ++ List.replicate after blank)
    row.rhs row.auxiliaries

end Row
end Clausal
