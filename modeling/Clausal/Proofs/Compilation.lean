import Clausal.Compilation.Function
import Clausal.Proofs.Splitting

/-!
# Runs of a compilation

What a successful compilation of a function, of a leaf, of the auxiliaries of a
leaf and of an inspection is made of: the steps that were taken, and the
workspaces and supplies between them.  What holds of all compilations is shown
from these, by recursion on the depth.
-/

namespace Clausal

open Telescope

open Eval (Returns)

variable

  {span : Span}

/-- The arguments that the rows of a function match. -/
def FunctionProblem.params (p : FunctionProblem) : Telescope :=
  (ofTypeUpTo p.arity p.type).1

/-- The problem that the rows of a function split. -/
def FunctionProblem.problem (p : FunctionProblem) : Problem where
  context := p.params
  goal := (ofTypeUpTo p.arity p.type).2
  args := args p.params
  locals := p.locals

/-- The rows of a function with their indices. -/
def FunctionProblem.numbered (p : FunctionProblem) : List (Nat × Row) :=
  p.rows.zipIdx.map fun (row, index) => (index, row)

/-- The function as a target of splitting. -/
def FunctionProblem.target (p : FunctionProblem) : SplitTarget :=
  { name := p.name, span := p.span, rows := p.rows }

/-- The workspace with one more function. -/
def Workspace.withFunction (w : Workspace) (f : Function) : Workspace :=
  { w with sig := w.sig.addFunction f }

namespace Compile

/-! ### Single steps -/

@[simp] lemma yields_scope :
    Yields (scope job) w n a w' m ↔
      { sig := w.sig, auxiliaries := job.auxiliaries } = a ∧ w = w' ∧ n = m := by
  simp only [scope, yields_bind, yields_get, yields_pure]
  constructor
  · rintro ⟨_, _, _, ⟨rfl, rfl, rfl⟩, rfl, rfl, rfl⟩
    exact ⟨rfl, rfl, rfl⟩
  · rintro ⟨rfl, rfl, rfl⟩
    exact ⟨w, w, n, ⟨rfl, rfl, rfl⟩, rfl, rfl, rfl⟩

@[simp] lemma yields_claim :
    Yields (claim span name) w n u w' m ↔
      (∃ base, w.base.claim name = .ok base ∧ { w with base, held := name :: w.held } = w') ∧
        n = m := by
  simp only [claim, yields_bind, yields_get]
  constructor
  · rintro ⟨_, _, _, ⟨rfl, rfl, rfl⟩, h⟩
    split at h
    · next base hbase =>
        obtain ⟨rfl, rfl⟩ := yields_set.1 h
        exact ⟨⟨base, hbase, rfl⟩, rfl⟩
    · simp at h
  · rintro ⟨⟨base, hbase, rfl⟩, rfl⟩
    refine ⟨w, w, n, ⟨rfl, rfl, rfl⟩, ?_⟩
    rw [hbase]
    exact yields_set.2 ⟨rfl, rfl⟩

/-! ### Steps that lead to others

The steps that only read or extend the workspace are carried out, so that what
is left of a run is where it computes. -/

variable {α β : Type}

lemma yields_env_bind {f : Env → Compile β} :
    Yields (env >>= f) w n b w' m ↔ Yields (f w.env) w n b w' m := by
  change Yields (get >>= fun w => f w.env) w n b w' m ↔ _
  rw [yields_bind]
  simp

lemma yields_scope_bind {f : Surface.Scope → Compile β} :
    Yields (scope job >>= f) w n b w' m ↔
      Yields (f { sig := w.sig, auxiliaries := job.auxiliaries }) w n b w' m := by
  simp [yields_bind]

lemma yields_get_bind {f : Workspace → Compile β} :
    Yields (get >>= f) w n b w' m ↔ Yields (f w) w n b w' m := by
  simp [yields_bind]

lemma yields_modify_bind {f : PUnit → Compile β} :
    Yields (modify g >>= f) w n b w' m ↔ Yields (f ⟨⟩) (g w) n b w' m := by
  rw [yields_bind]
  simp only [yields_modify]
  constructor
  · rintro ⟨_, _, _, ⟨hw, hn⟩, h⟩
    exact hw ▸ hn ▸ h
  · intro h
    exact ⟨⟨⟩, _, _, ⟨rfl, rfl⟩, h⟩

lemma yields_addFunction_bind {f : Unit → Compile β} :
    Yields (addFunction g >>= f) w n b w' m ↔ Yields (f ()) (w.withFunction g) n b w' m :=
  yields_modify_bind

lemma yields_addAuxiliary_bind {f : Unit → Compile β} :
    Yields (addAuxiliary g >>= f) w n b w' m ↔
      Yields (f ()) { w with auxiliaries := w.auxiliaries ++ [g] } n b w' m :=
  yields_modify_bind

lemma yields_fresh_bind {x : Fresh α} {f : α → Compile β} :
    Yields ((liftM x : Compile α) >>= f) w n b w' m ↔
      Yields (f (x.value n)) w (x.next n) b w' m := by
  simp [yields_bind]

lemma yields_lift_bind {f : α → Compile β} :
    Yields ((liftM x : Compile α) >>= f) w n b w' m ↔
      ∃ a k, Returns x n a k ∧ Yields (f a) w k b w' m := by
  simp [yields_bind, and_assoc]

lemma yields_attempt_bind {f : α → Compile β} :
    Yields (attempt x >>= f) w n b w' m ↔
      ∃ a k, Eval.Yields x n a k ∧ Yields (f a) w k b w' m := by
  simp [yields_bind, and_assoc]

lemma yields_checked_bind {f : α → Compile β} :
    Yields (checked report x >>= f) w n b w' m ↔
      ∃ a k, Eval.Yields x n a k ∧ Yields (f a) w k b w' m := by
  simp [yields_bind, and_assoc]

lemma yields_resolved_bind {f : α → Compile β} :
    Yields (resolved x >>= f) w n b w' m ↔
      ∃ a k, Fresh.Yields x n a k ∧ Yields (f a) w k b w' m := by
  simp [yields_bind, and_assoc]

/-- The name of the next copy of an auxiliary. -/
def copyName (job : Job) (w : Workspace) (name : Name) : Name :=
  if w.lifted.count name = 0 then Name.qualify job.root name
  else Name.qualify (Name.qualify job.root name) (toString (w.lifted.count name + 1))

lemma yields_liftedName_bind {f : Name → Compile β} :
    Yields (liftedName job name >>= f) w n b w' m ↔
      Yields (f (copyName job w name)) { w with lifted := name :: w.lifted } n b w' m := Iff.rfl

lemma yields_inspectionName_bind {f : Name → Compile β} :
    Yields (inspectionName job >>= f) w n b w' m ↔
      Yields (f (Name.qualify job.root s!"with{w.inspections + 1}"))
        { w with inspections := w.inspections + 1 } n b w' m := Iff.rfl

lemma checkForced_yields
    (h : Yields (checkForced job Γ locals forced) w n u w' m) : w = w' := by
  induction forced generalizing n with
  | nil => exact (yields_pure.1 h).2.1
  | cons f fs ih =>
    simp only [checkForced, yields_scope_bind, yields_resolved_bind, yields_env_bind,
      yields_lift_bind] at h
    obtain ⟨found, k, -, b, l, -, h⟩ := h
    split at h
    · exact ih h
    · simp at h

lemma reportRedundant_yields (h : Yields (reportRedundant job rows reached) w n u w' m) :
    n = m ∧ ∃ warnings, w' = { w with warnings } := by
  unfold reportRedundant at h
  generalize rows.zipIdx = entries at h
  induction entries generalizing w with
  | nil =>
    obtain ⟨-, rfl, rfl⟩ := yields_pure.1 h
    exact ⟨rfl, w.warnings, rfl⟩
  | cons entry entries ih =>
    change Yields (_ >>= fun _ => entries.forM _) w n u w' m at h
    obtain ⟨_, w₁, k, hrow, hrest⟩ := yields_bind.1 h
    have hw : n = k ∧ ∃ warnings, w₁ = { w with warnings } := by
      dsimp only at hrow
      split at hrow
      · obtain ⟨-, rfl, rfl⟩ := yields_pure.1 hrow
        exact ⟨rfl, w.warnings, rfl⟩
      · split at hrow
        · obtain ⟨rfl, rfl⟩ := yields_modify.1 hrow
          exact ⟨rfl, _, rfl⟩
        · simp at hrow
    obtain ⟨rfl, warnings, rfl⟩ := hw
    obtain ⟨rfl, warnings', rfl⟩ := ih hrest
    exact ⟨rfl, warnings', rfl⟩

/-! ### Functions -/

/-- How a function was made of its tree: body, equations and elimination
principle were generated and checked, one after another. -/
structure Finishes (job : Job) (p : FunctionProblem) (tree : SplitTree) (w : Workspace) (n : Nat)
    (f : CompiledFunction) (w' : Workspace) (m : Nat) where
  bodyChecked : Nat
  equationsChecked : Nat
  body : Eval.Yields (w.env.check [] f.term p.type) n () bodyChecked
  equations : Eval.Yields (Equation.generate (w.sig.addFunction
      { name := p.name, type := p.type, body := some f.term, transparent := job.transparent })
    p.name tree) bodyChecked f.equations equationsChecked
  sig : Signature
  elimination : Eval.Yields (Elimination.derive (w.sig.addFunction
      { name := p.name, type := p.type, body := some f.term, transparent := job.transparent })
    p.name p.params tree) equationsChecked (f.elimination, sig) m
  term_eq : f.term = lams p.params tree.body
  name_eq : f.name = p.name
  type_eq : f.type = p.type
  tree_eq : f.tree = tree
  transparent_eq : f.transparent = job.transparent
  workspace : w' = { w with
    sig := sig.addFunction
      { name := p.name, type := p.type, body := some f.term, transparent := job.transparent,
        eliminator := some f.elimination.name } }

lemma finish_yields (h : Yields (finish job p p.params tree) w n f w' m) :
    Nonempty (Finishes job p tree w n f w' m) := by
  simp only [finish, yields_env_bind, yields_checked_bind, yields_addFunction_bind,
    yields_get_bind, yields_attempt_bind, yields_modify_bind, yields_pure] at h
  obtain ⟨_, k, hbody, equations, l, hequations, ⟨elimination, sig⟩, j, helimination, rfl, rfl,
    rfl⟩ := h
  exact ⟨k, l, hbody, hequations, sig, helimination, rfl, rfl, rfl, rfl, rfl, rfl⟩

/-- The function claims its name, unless that is the name of the definition. -/
def Claims (job : Job) (p : FunctionProblem) (w w' : Workspace) : Prop :=
  p.name = job.root ∧ w' = w ∨
    p.name ≠ job.root ∧ ∃ base, w.base.claim p.name = .ok base ∧
      w' = { w with base, held := p.name :: w.held }

/-- The workspace in which the rows of a function are split. -/
def opening (p : FunctionProblem) (claimed : Workspace) : Workspace :=
  claimed.withFunction { name := p.name, type := p.type }

/-- How a function was compiled. -/
structure FunctionRun (job : Job) (fuel : Nat) (p : FunctionProblem) (w : Workspace) (n : Nat)
    (f : CompiledFunction) (w' : Workspace) (m : Nat) where
  claimed : Workspace
  claims : Claims job p w claimed
  tree : SplitTree
  reached : List Nat
  settled : Workspace
  splitSupply : Nat
  splits : Splits p.target (leaf job fuel) (opening p claimed) n p.problem p.numbered tree reached
    settled splitSupply
  reported : Workspace
  reports : Yields (reportRedundant job p.rows reached) settled splitSupply () reported splitSupply
  finishes : Finishes job p tree reported splitSupply f w' m

lemma function_run (h : Yields (function job (fuel + 1) p) w n f w' m) :
    Nonempty (FunctionRun job fuel p w n f w' m) := by
  -- Whether the name is claimed or not, the rest of the run is the same.
  have hrest : ∃ w₁, Claims job p w w₁ ∧ Yields (do
      addFunction { name := p.name, type := p.type }
      let split ← splitRows { name := p.name, span := p.span, rows := p.rows }
        (leaf job fuel) fuel p.problem
      reportRedundant job p.rows split.2
      finish job p p.params split.1) w₁ n f w' m := by
    rw [function] at h
    split at h
    · next hname =>
        obtain ⟨_, w₁, _, hclaim, h⟩ := yields_bind.1 h
        obtain ⟨⟨base, hbase, rfl⟩, rfl⟩ := yields_claim.1 hclaim
        exact ⟨_, .inr ⟨by simpa using hname, base, hbase, rfl⟩, h⟩
    · next hname => exact ⟨w, .inl ⟨by simpa using hname, rfl⟩, h⟩
  obtain ⟨w₁, hclaims, h⟩ := hrest
  rw [yields_addFunction_bind] at h
  obtain ⟨⟨tree, reached⟩, w₂, k, hsplit, h⟩ := yields_bind.1 h
  obtain ⟨_, w₃, l, hreport, hfinish⟩ := yields_bind.1 h
  obtain rfl := (reportRedundant_yields hreport).1
  obtain ⟨hfinishes⟩ := finish_yields hfinish
  exact ⟨w₁, hclaims, tree, reached, w₂, k, splits_of_split fuel hsplit, w₃, hreport, hfinishes⟩

lemma FunctionRun.ends (run : FunctionRun job fuel p w n f w' m) :
    ∃ warnings, w' = { run.settled with
      sig := run.finishes.sig.addFunction
        { name := p.name, type := p.type, body := some f.term, transparent := job.transparent,
          eliminator := some f.elimination.name }
      warnings } := by
  obtain ⟨-, warnings, hreported⟩ := reportRedundant_yields run.reports
  refine ⟨warnings, run.finishes.workspace.trans ?_⟩
  have hsig : ∀ (sig : Signature) {w w₁ : Workspace}, w = w₁ →
      ({ w with sig } : Workspace) = { w₁ with sig } := fun sig _ _ h => h ▸ rfl
  exact hsig _ hreported

/-! ### Auxiliaries -/

/-- How an auxiliary of a leaf was declared. -/
structure Declares (job : Job) (Γ : Telescope) (d : Surface.Definition) (locals : Surface.Locals)
    (w : Workspace) (n : Nat) (a : Auxiliary) (w' : Workspace) (m : Nat) where
  type : Term
  resolvedSupply : Nat
  resolves : Fresh.Yields (Surface.Scope.funType { sig := w.sig, auxiliaries := job.auxiliaries }
    locals d.params d.type) n type resolvedSupply
  checks : Eval.Yields (w.env.checkType Γ type) resolvedSupply () m
  auxiliary : a = { name := copyName job w d.name.name, type := pis Γ type,
                    arity := (ofType type).1.length, definition := d }
  workspace : w' = { w with
    lifted := d.name.name :: w.lifted
    sig := w.sig.addFunction { name := a.name, type := a.type } }

/-- The declared auxiliary among the names of its leaf. -/
def Auxiliary.local (Γ : Telescope) (a : Auxiliary) : Name × Term :=
  (a.definition.name.name, (Term.global a.name).apps (args Γ))

lemma declareAuxiliaries_cons {d : Surface.Definition}
    (h : Yields (declareAuxiliaries job Γ (d :: ds) locals) w n result w' m) :
    ∃ a rest w₁ k, Nonempty (Declares job Γ d locals w n a w₁ k) ∧ result.1 = a :: rest ∧
      Yields (declareAuxiliaries job Γ ds (a.local Γ :: locals)) w₁ k (rest, result.2) w' m := by
  simp only [declareAuxiliaries, yields_liftedName_bind, yields_scope_bind, yields_resolved_bind,
    yields_env_bind, yields_checked_bind, yields_addFunction_bind] at h
  obtain ⟨type, k, htype, _, l, hcheck, h⟩ := h
  obtain ⟨⟨rest, locals'⟩, w₁, j, hrest, h⟩ := yields_bind.1 h
  obtain ⟨rfl, rfl, rfl⟩ := yields_pure.1 h
  exact ⟨_, rest, _, l, ⟨type, k, htype, hcheck, rfl, rfl⟩, rfl, hrest⟩

lemma declareAuxiliaries_nil (h : Yields (declareAuxiliaries job Γ [] locals) w n result w' m) :
    result = ([], locals) ∧ w = w' ∧ n = m := by
  obtain ⟨rfl, rfl, rfl⟩ := yields_pure.1 h
  exact ⟨rfl, rfl, rfl⟩

/-- The auxiliary of a leaf as a function to compile. -/
def Auxiliary.problem (Γ : Telescope) (locals : Surface.Locals) (rows : List Row)
    (a : Auxiliary) : FunctionProblem :=
  { name := a.name, span := a.definition.span, type := a.type, arity := Γ.length + a.arity,
    rows := rows.map (·.pad Γ.length 0), locals }

lemma auxiliaries_yields (h : Yields (auxiliaries job (fuel + 1) Γ ds locals) w n locals' w' m) :
    ∃ declared w₁ k, Yields (declareAuxiliaries job Γ ds locals) w n (declared, locals') w₁ k ∧
      Yields (compileAuxiliaries job fuel Γ locals' declared) w₁ k () w' m := by
  rw [auxiliaries] at h
  obtain ⟨⟨declared, _⟩, w₁, k, hdeclare, h⟩ := yields_bind.1 h
  obtain ⟨_, w₂, l, hcompile, h⟩ := yields_bind.1 h
  obtain ⟨rfl, rfl, rfl⟩ := yields_pure.1 h
  exact ⟨declared, w₁, k, hdeclare, hcompile⟩

lemma compileAuxiliaries_nil
    (h : Yields (compileAuxiliaries job (fuel + 1) Γ locals []) w n u w' m) : w = w' ∧ n = m :=
  (yields_pure.1 h).2

lemma compileAuxiliaries_cons
    (h : Yields (compileAuxiliaries job (fuel + 1) Γ locals (a :: rest)) w n u w' m) :
    ∃ rows f w₁ k, w.sig.matrix a.arity a.definition.clauses = .ok rows ∧
      Yields (function job fuel (a.problem Γ locals rows)) w n f w₁ k ∧
      Yields (compileAuxiliaries job fuel Γ locals rest)
        { w₁ with auxiliaries := w₁.auxiliaries ++ [f] } k () w' m := by
  simp only [compileAuxiliaries, yields_get_bind, yields_attempt_bind] at h
  obtain ⟨rows, k, hrows, h⟩ := h
  obtain ⟨f, w₁, l, hfunction, hrest⟩ := yields_bind.1 h
  rw [yields_addAuxiliary_bind] at hrest
  obtain ⟨hmatrix, rfl⟩ := Eval.returns_pure.1 hrows
  exact ⟨rows, f, w₁, l, hmatrix, hfunction, hrest⟩

/-! ### Inspections -/

/-- How the auxiliary of an inspection is posed. -/
structure Poses (job : Job) (p : Problem) (locals : Surface.Locals) (span : Span)
    (scrut : Surface.Term) (equation : Option Surface.Ident) (rows : List Row) (w : Workspace)
    (n : Nat) (node : Inspection) where
  resolvedSupply : Nat
  resolves : Fresh.Yields (Surface.Scope.term { sig := w.sig, auxiliaries := job.auxiliaries }
    locals scrut) n node.scrut resolvedSupply
  typedSupply : Nat
  types : Eval.Yields (w.env.synth p.context node.scrut) resolvedSupply node.scrutType typedSupply
  scrutVar_eq : node.scrutVar = ⟨typedSupply, "w"⟩
  equationVar_eq : node.equationVar = ⟨typedSupply + 1, (equation.map (·.name)).getD "h"⟩
  /-- The variables of the leaf, the value, and the equation. -/
  params : Telescope
  params_eq : params = p.context ++ [(node.scrutVar, node.scrutType),
    (node.equationVar, .eq node.scrutType node.scrut (.var node.scrutVar))]
  type : Term
  type_eq : type = params.pis (p.goal.abstract node.scrut (.var node.scrutVar))
  checkedSupply : Nat
  checks : Eval.Yields (w.env.checkType [] type) (typedSupply + 2) () checkedSupply
  name_eq : node.function = Name.qualify job.root s!"with{w.inspections + 1}"
  call_eq : node.call = (Term.global node.function).apps
    (args p.context ++ [node.scrut, .refl node.scrutType node.scrut])
  problem : FunctionProblem
  problem_eq : problem =
    { name := node.function, span, type, arity := params.length,
      rows := rows.map (·.pad p.context.length 1),
      locals := (equation.map fun ident => (ident.name, .var node.equationVar)).toList ++ locals }

/-- How a term was inspected. -/
structure Inspects (job : Job) (fuel : Nat) (p : Problem) (locals : Surface.Locals) (span : Span)
    (scrut : Surface.Term) (equation : Option Surface.Ident) (rows : List Row) (w : Workspace)
    (n : Nat) (node : Inspection) (tree : SplitTree) (w' : Workspace) (m : Nat)
    extends Poses job p locals span scrut equation rows w n node where
  function : CompiledFunction
  compiled : Workspace
  compiledSupply : Nat
  compiles : Yields (Compile.function job fuel problem)
    { w with inspections := w.inspections + 1 } checkedSupply function compiled compiledSupply
  tree_eq : tree = function.tree
  checksCall : Eval.Yields (compiled.env.check p.context node.call p.goal) compiledSupply () m
  workspace : w' = { compiled with auxiliaries := compiled.auxiliaries ++ [function] }

lemma inspection_yields {p : Problem}
    {result : Inspection × SplitTree}
    (h : Yields (inspection job (fuel + 1) p locals span scrut equation rows) w n result w' m) :
    Nonempty (Inspects job fuel p locals span scrut equation rows w n result.1 result.2 w' m) := by
  simp only [inspection, yields_scope_bind, yields_resolved_bind, yields_env_bind,
    yields_checked_bind, yields_fresh_bind, yields_inspectionName_bind] at h
  obtain ⟨term, k, hterm, type, l, htype, _, j, hcheck, h⟩ := h
  obtain ⟨f, w₁, i, hfunction, h⟩ := yields_bind.1 h
  simp only [yields_env_bind, yields_checked_bind, yields_addAuxiliary_bind, yields_pure] at h
  obtain ⟨_, _, hcall, rfl, rfl, rfl⟩ := h
  refine ⟨⟨k, hterm, l, htype, rfl, rfl, _, rfl, _, rfl, j, hcheck, rfl, rfl, _, rfl⟩, f, w₁, i, ?_,
    rfl, hcall, rfl⟩
  cases equation <;> exact hfunction

/-! ### Leaves -/

end Compile

/-- Where a row applies. -/
def ReachedRow.site (r : ReachedRow) : LeafSite :=
  { clause := r.index, context := r.problem.context, args := r.problem.args,
    goal := r.problem.goal }

namespace Compile

/-- How a row that matched was settled. -/
inductive Settles (job : Job) (fuel : Nat) (r : ReachedRow) (w : Workspace) (n : Nat) :
    SplitTree → Workspace → Nat → Prop
  | absurd {span : Span} {v : Var} {m : Nat} :
      r.row.rhs = .absurd span → Returns (w.env.findEmpty r.problem.context) n (some v) m →
      Settles job fuel r w n (.absurd r.problem.context v r.problem.args r.problem.goal) w m
  | term {body : Surface.Term} {k l j m : Nat} {locals : Surface.Locals} {w' : Workspace}
      {t : Term} :
      r.row.rhs = .term body →
      Yields (checkForced job r.problem.context r.locals r.forced) w n () w k →
      Yields (auxiliaries job fuel r.problem.context r.row.auxiliaries r.locals) w k locals w' l →
      Fresh.Yields
        (Surface.Scope.term { sig := w'.sig, auxiliaries := job.auxiliaries } locals body)
        l t j →
      Eval.Yields (w'.env.check r.problem.context t r.problem.goal) j () m →
      Settles job fuel r w n (.leaf r.site t) w' m
  | inspect {scrut : Surface.Term} {equation : Option Surface.Ident} {rows : List Row}
      {k l m : Nat} {locals : Surface.Locals} {w₁ w' : Workspace} {node : Inspection}
      {tree : SplitTree} :
      r.row.rhs = .inspect scrut equation rows →
      Yields (checkForced job r.problem.context r.locals r.forced) w n () w k →
      Yields (auxiliaries job fuel r.problem.context r.row.auxiliaries r.locals) w k locals w₁ l →
      Yields (inspection job fuel r.problem locals r.row.span scrut equation rows) w₁ l (node, tree)
        w' m →
      Settles job fuel r w n (.inspect r.site node tree) w' m

lemma leaf_settles (h : Yields (leaf job (fuel + 1) r) w n tree w' m) :
    Settles job fuel r w n tree w' m := by
  rw [leaf] at h
  split at h
  · next span hrhs =>
      simp only [yields_env_bind, yields_lift_bind] at h
      obtain ⟨found, k, hfind, h⟩ := h
      split at h
      · obtain ⟨rfl, rfl, rfl⟩ := yields_pure.1 h
        exact .absurd hrhs hfind
      · simp at h
  · next body hrhs =>
      obtain ⟨_, _, k, hforced, h⟩ := yields_bind.1 h
      obtain ⟨locals, w₁, l, haux, h⟩ := yields_bind.1 h
      simp only [yields_scope_bind, yields_resolved_bind, yields_env_bind, yields_checked_bind,
        yields_pure] at h
      obtain ⟨t, j, hterm, _, i, hcheck, rfl, rfl, rfl⟩ := h
      obtain rfl := checkForced_yields hforced
      exact .term hrhs hforced haux hterm hcheck
  · next scrut equation rows hrhs =>
      obtain ⟨_, _, k, hforced, h⟩ := yields_bind.1 h
      obtain ⟨locals, w₁, l, haux, h⟩ := yields_bind.1 h
      obtain ⟨⟨node, subtree⟩, w₂, j, hinspect, h⟩ := yields_bind.1 h
      obtain ⟨rfl, rfl, rfl⟩ := yields_pure.1 h
      obtain rfl := checkForced_yields hforced
      exact .inspect hrhs hforced haux hinspect

/-! ### Definitions -/

lemma definition_yields (h : Yields (definition decl options) w n d w' m) :
    ∃ names rows, Surface.auxiliaryNames decl.clauses = .ok names ∧
      w.sig.matrix (ofType decl.type).1.length decl.clauses = .ok rows ∧
      Yields (function { root := decl.name, transparent := decl.transparent, auxiliaries := names,
                         options } ({ sig := w.sig } : Env).fuel
        { name := decl.name, span := decl.span, type := decl.type,
          arity := (ofType decl.type).1.length, rows, locals := [] }) w n d.main w' m ∧
      d.auxiliaries = w'.auxiliaries ∧ d.warnings = w'.warnings := by
  simp only [definition, yields_get_bind, yields_attempt_bind] at h
  obtain ⟨names, _, hnames, rows, _, hrows, h⟩ := h
  obtain ⟨f, w₁, k, hfunction, h⟩ := yields_bind.1 h
  rw [yields_get_bind] at h
  obtain ⟨rfl, rfl, rfl⟩ := yields_pure.1 h
  obtain ⟨hdistinct, rfl⟩ := Eval.returns_pure.1 hnames
  obtain ⟨hmatrix, rfl⟩ := Eval.returns_pure.1 hrows
  exact ⟨names, rows, hdistinct, hmatrix, hfunction, rfl, rfl⟩

end Compile

/-- A compilation that succeeds, from its claim to the registration. -/
lemma compile_yields (h : Returns (compile base sig decl options) n (.ok d, base') m) :
    ∃ claimed w, base.claim decl.name = .ok claimed ∧
      Compile.Yields (Compile.definition decl options)
        { sig, base := claimed, held := [decl.name] } n d w m ∧
      base' = (w.base.registerHeld w.held d).releaseAll w.held := by
  unfold compile at h
  split at h
  · simp at h
  · next claimed hclaimed =>
      obtain ⟨⟨result, w⟩, k, hrun, h⟩ := Eval.returns_bind.1 h
      obtain ⟨heq, rfl⟩ := Eval.returns_pure.1 h
      obtain ⟨hresult, hbase⟩ := Prod.mk.inj heq
      obtain rfl : result = .ok d := hresult
      exact ⟨claimed, w, hclaimed, hrun, hbase.symm⟩

end Clausal
