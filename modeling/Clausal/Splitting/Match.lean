import Clausal.Clause.Matrix
import Clausal.Typing.Checker

/-!
# Matching a row against arguments

The patterns of a row are matched from left to right, sub-patterns where they
stand.  A different constructor settles that the row does not match.  A
constructor pattern against a variable blocks the row; the first such variable
is the one to split.
-/

namespace Clausal

/-- An inaccessible pattern and the value that is forced at its place. -/
structure Forced where
  span : Span
  term : Surface.Term
  value : Term
deriving Repr, Inhabited

/-- How far matching a row has come. -/
structure Progress where
  /-- Names and what they matched, the latest first. -/
  locals : Surface.Locals
  /-- Inaccessible patterns in their order. -/
  forced : List Forced := []
  /-- The first variable that stands where a constructor is wanted. -/
  blocked : Option (Var × Pattern) := none
  /-- The first value that is neither a variable nor of constructor form. -/
  failed : Option CompileError := none
deriving Repr, Inhabited

/-- What matching a row leads to. -/
inductive RowMatch where
  | matched (locals : Surface.Locals) (forced : List Forced)
  | mismatch
  | blocked (v : Var) (pattern : Pattern)
  | failed (error : CompileError)
deriving Repr, Inhabited

namespace Progress

/-- The outcome once all patterns have been looked at. -/
def outcome (p : Progress) : RowMatch :=
  match p.blocked, p.failed with
  | some (v, pattern), _ => .blocked v pattern
  | none, some error => .failed error
  | none, none => .matched p.locals p.forced

def block (p : Progress) (v : Var) (pattern : Pattern) : Progress :=
  { p with blocked := p.blocked <|> some (v, pattern) }

def fail (p : Progress) (error : CompileError) : Progress :=
  { p with failed := p.failed <|> some error }

end Progress

/-- What a reduced value is where a constructor is wanted. -/
inductive ValueShape where
  | var (v : Var)
  | ctor (fields : List Term)
  | otherCtor
  | unclear
deriving Repr

/-- Compare a reduced value with a constructor. -/
def Env.valueShape (env : Env) (ctor : Name) (value : Term) : ValueShape :=
  match value.var?, value.globalSpine? with
  | some v, _ => .var v
  | none, some (head, args) =>
      if head == ctor then
        .ctor (args.drop (((env.ctor? head).map (·.numParams)).getD 0))
      else if (env.ctor? head).isSome then .otherCtor
      else .unclear
  | none, none => .unclear

mutual

/-- Match a pattern; the answer is `none` if it cannot match. -/
def Env.matchPattern (env : Env) : Pattern → Term → Progress → Eval (Option Progress)
  | .wildcard _, _, p => return some p
  | .var _ name, t, p => return some { p with locals := (name, t) :: p.locals }
  | .inaccessible span term, t, p => return some { p with forced := p.forced ++ [⟨span, term, t⟩] }
  | .ctor span ctor args, t, p => do
      let value ← env.whnf t
      match env.valueShape ctor value with
      | .var v => return some (p.block v (.ctor span ctor args))
      | .ctor fields => matchPatterns env args fields p
      | .otherCtor => return none
      | .unclear => return some (p.fail (.typing span (.caseOnNonVariable value)))
termination_by structural pattern => pattern

/-- Match patterns against as many terms. -/
def Env.matchPatterns (env : Env) : List Pattern → List Term → Progress → Eval (Option Progress)
  | [], _, p => return some p
  | _ :: _, [], p => return some p
  | pattern :: patterns, t :: ts, p => do
      match ← matchPattern env pattern t p with
      | some p => matchPatterns env patterns ts p
      | none => return none
termination_by structural patterns => patterns

end

/-- Match the patterns of a row. -/
def Env.matchRow (env : Env) (row : Row) (args : List Term) (locals : Surface.Locals) :
    Eval RowMatch := do
  match ← env.matchPatterns row.patterns args { locals } with
  | some p => return p.outcome
  | none => return .mismatch

end Clausal
