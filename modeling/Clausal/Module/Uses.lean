import Clausal.Surface.Tree

/-!
# Names that a definition uses

The names in a definition that are not bound around them.  Names of patterns,
parameters, auxiliaries and equations shadow definitions of the same name.
-/

namespace Clausal.Surface

/-- The names of parameters, from left to right. -/
def paramNames (ps : List Param) : List Name :=
  ps.flatMap fun p => p.names.map (·.name)

mutual

/-- The names that a term uses, apart from those in `bound`. -/
def Term.uses (bound : List Name) : Term → List Name
  | .name _ n => if bound.contains n then [] else [n]
  | .univ _ => []
  | .ann _ t type => t.uses bound ++ type.uses bound
  | .arrow _ dom cod => dom.uses bound ++ cod.uses bound
  | .pi _ ps body => paramsUses bound ps ++ body.uses (paramNames ps ++ bound)
  | .lam _ ps body => paramsUses bound ps ++ body.uses (paramNames ps ++ bound)
  | .app _ head arg => head.uses bound ++ arg.uses bound
termination_by structural t => t

/-- The names that the types of parameters use; each group is bound in those
after it. -/
def paramsUses (bound : List Name) : List Param → List Name
  | [] => []
  | p :: ps => p.uses bound ++ paramsUses (p.names.map (·.name) ++ bound) ps
termination_by structural ps => ps

def Param.uses (bound : List Name) : Param → List Name
  | .mk _ type => type.uses bound
termination_by structural p => p

end

mutual

/-- The names that a pattern binds. -/
def Pattern.binds : Pattern → List Name
  | .name _ n => [n]
  | .placeholder _ => []
  | .ctor _ _ args => patternsBind args
  | .inaccessible _ _ => []
  | .list _ elems => patternsBind elems
termination_by structural p => p

def patternsBind : List Pattern → List Name
  | [] => []
  | p :: ps => p.binds ++ patternsBind ps
termination_by structural ps => ps

end

mutual

/-- The names that the inaccessible parts of a pattern use.  What stands to
their left is bound. -/
def Pattern.uses (bound : List Name) : Pattern → List Name
  | .name _ _ => []
  | .placeholder _ => []
  | .ctor _ _ args => patternsUse bound args
  | .inaccessible _ t => t.uses bound
  | .list _ elems => patternsUse bound elems
termination_by structural p => p

def patternsUse (bound : List Name) : List Pattern → List Name
  | [] => []
  | p :: ps => p.uses bound ++ patternsUse (p.binds ++ bound) ps
termination_by structural ps => ps

end

mutual

/-- The names that a clause uses.  Its auxiliaries are bound in all of it. -/
def Clause.uses (bound : List Name) : Clause → List Name
  | .mk _ ps rhs auxiliaries =>
      let inside := auxiliaries.map (·.name.name) ++ patternsBind ps ++ bound
      patternsUse bound ps ++ definitionsUse inside auxiliaries ++ rhs.uses inside
termination_by structural c => c

def Rhs.uses (bound : List Name) : Rhs → List Name
  | .term t => t.uses bound
  | .inspect scrut equation clauses =>
      scrut.uses bound ++ clausesUse ((equation.map (·.name)).toList ++ bound) clauses
  | .absurd _ => []
termination_by structural r => r

/-- The names that a definition uses.  Its parameters are bound in its type
only; clauses have patterns for them. -/
def Definition.uses (bound : List Name) : Definition → List Name
  | .mk _ _ _ ps type clauses =>
      paramsUses bound ps ++ type.uses (paramNames ps ++ bound) ++ clausesUse bound clauses
termination_by structural d => d

def clausesUse (bound : List Name) : List Clause → List Name
  | [] => []
  | c :: cs => c.uses bound ++ clausesUse bound cs
termination_by structural cs => cs

def definitionsUse (bound : List Name) : List Definition → List Name
  | [] => []
  | d :: ds => d.uses bound ++ definitionsUse bound ds
termination_by structural ds => ds

end

end Clausal.Surface
