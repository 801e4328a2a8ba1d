import Clausal.Proofs.Branching
import Clausal.Proofs.Module

/-!
# Scoping of splitting trees

At every node of a splitting tree the arguments and the goal mention variables of the
node's context only, if the variables at the root are distinct and no variable is split
whose type mentions it.
-/

namespace Clausal

open Eval List Telescope Term

variable {args : List Term} {locals : Surface.Locals}
  {rows : List (Nat × Row)} {tree : SplitTree} {value : Term} {w w' : Workspace}

/-! ### Blocked rows -/

/-- The variable that blocks a row is one of these. -/
def Progress.BlockedIn (V : Var → Prop) (p : Progress) : Prop :=
  ∀ ⦃v : Var⦄ ⦃pattern : Pattern⦄, p.blocked = some (v, pattern) → V v

lemma Progress.BlockedIn.block {p : Progress} (h : p.BlockedIn V) (hv : V v) (pattern : Pattern) :
    (p.block v pattern).BlockedIn V := by
  intro w pattern' hblocked
  cases hp : p.blocked with
  | none =>
    simp only [Progress.block, hp] at hblocked
    obtain ⟨rfl, -⟩ := Prod.mk.inj (Option.some.inj hblocked)
    exact hv
  | some first =>
    simp only [Progress.block, hp] at hblocked
    exact h (hp.trans hblocked)

namespace Env

variable {env : Env}

lemma valueShape_var (h : env.valueShape ctor value = .var v) : value = .var v := by
  unfold valueShape at h
  split at h
  · next w _ hvar =>
      cases value <;> simp [Term.var?] at hvar
      rw [hvar, ValueShape.var.inj h]
  · split at h
    · cases h
    · split at h <;> cases h
  · cases h

lemma valueShape_ctor (h : env.valueShape ctor value = .ctor fields)
    (hvalue : value.Over { vars := V }) : ∀ t ∈ fields, t.Over { vars := V } := by
  obtain ⟨head, args, rfl, hargs⟩ := valueShape_fields h
  exact fun t ht => (over_apps.1 hvalue).2 t (hargs t ht)

/-- Only a constructor pattern blocks, and only on what the argument reduces to. -/
lemma matchKeeps_blocked (hclosed : env.Closed) :
    env.MatchKeeps (fun n t => (∀ x, V x → x.id < n) ∧ t.Over { vars := V })
      fun _ p => p.BlockedIn V where
  mono hnm ht := ⟨fun x hx => lt_of_lt_of_le (ht.1 x hx) hnm, ht.2⟩
  later _ hp := hp
  whnf ht h := ⟨fun x hx => lt_of_lt_of_le (ht.1 x hx) (env.whnf_forward _ h),
    whnf_over hclosed ht.1 ht.2 h⟩
  fields hvalue hshape t ht := ⟨hvalue.1, valueShape_ctor hshape hvalue.2 t ht⟩
  bind _ _ hp := hp
  force _ hp := hp
  block _ hvalue hshape hp := by
    rw [valueShape_var hshape] at hvalue
    exact hp.block hvalue.2 _
  fail _ _ hp := hp

lemma matchRow_blocked (hclosed : env.Closed) (hV : ∀ x, V x → x.id < n)
    (hargs : ∀ a ∈ args, a.Over { vars := V })
    (h : Returns (env.matchRow row args locals) n (.blocked v pattern) m) : V v := by
  simp only [matchRow, returns_bind] at h
  obtain ⟨r, k, hmatch, h⟩ := h
  split at h
  · next p =>
      obtain ⟨hout, -⟩ := returns_pure.1 h
      have hstart : Progress.BlockedIn V { locals } := fun _ _ hnone => by cases hnone
      have hp := (matchKeeps_blocked hclosed).patterns row.patterns
        (fun a ha => ⟨hV, hargs a ha⟩) hstart hmatch
      unfold Progress.outcome at hout
      split at hout
      · next w pattern' _ hblocked =>
          obtain ⟨rfl, -⟩ := RowMatch.blocked.inj hout
          exact hp hblocked
      · cases hout
      · cases hout
  · cases (returns_pure.1 h).1

lemma decideRows_occurs (hclosed : env.Closed) {p : Problem}
    (hargs : ∀ a ∈ p.args, a.Over (.below n))
    (h : Returns (env.decideRows p rows) n (.split v pattern later) m) :
    ∃ a ∈ p.args, a.occurs v = true := by
  induction rows generalizing n with
  | nil =>
    cases (returns_pure.1 h).1
  | cons r rows ih =>
    simp only [decideRows, returns_bind] at h
    obtain ⟨outcome, k, hmatch, h⟩ := h
    have hk := matchRow_forward _ _ _ hmatch
    split at h
    · exact ih (fun a ha => (hargs a ha).mono (Reach.below_le hk)) h
    · cases (returns_pure.1 h).1
    · obtain ⟨heq, rfl⟩ := returns_pure.1 h
      obtain ⟨rfl, -, -⟩ := Decision.split.inj heq
      -- Reduction finds no variables but those that occur.
      refine matchRow_blocked (V := fun x => ∃ a ∈ p.args, a.occurs x = true) hclosed ?_ ?_ hmatch
      · rintro x ⟨a, ha, hx⟩
        exact (hargs a ha).occurs hx
      · exact fun a ha => over_iff_occurs.2 fun x hx => ⟨a, ha, hx⟩
    · cases (returns_pure.1 h).1

end Env

/-! ### Nodes and branches -/

namespace SplitTree

/-- At a node the variables are distinct, and arguments and goal mention no others. -/
structure NodeScoped (Γ : Telescope) (args : List Term) (goal : Term) : Prop where
  nodup : Γ.vars.Nodup
  args : ∀ a ∈ args, ∀ x ∈ a.freeVars, x ∈ Γ.vars
  goal : ∀ x ∈ goal.freeVars, x ∈ Γ.vars

/-- The substitution that leads from a node, where the variable `v` is split, to
the branch of a constructor, with the context `Δ`. -/
structure Leads (v : Var) (args : List Term) (goal : Term) (ctor : Name) (fields : List Var)
    (Δ : Telescope) (args' : List Term) (goal' : Term) (σ : Subst) : Prop where
  args : List.Forall₂ σ.Gives args args'
  goal : σ.Gives goal goal'
  /-- Fields may have been solved. -/
  value : ∃ params, σ.get? v = some ((Term.global ctor).apps (params ++ fields.map σ.image))
  identity : ∀ x ∈ Δ.vars, σ.get? x = none
  gone : ∀ x, σ.contains x = true → (∀ a ∈ args', x ∉ a.freeVars) ∧ x ∉ goal'.freeVars ∧
    ∀ e ∈ Δ, x ∉ e.2.freeVars

/-- The variable that is split is not mentioned where the branch goes on. -/
lemma Leads.split_gone {goal : Term}
    (h : Leads v args goal ctor fields Δ args' goal' σ) :
    ∀ e ∈ Δ, v ∉ e.2.freeVars := by
  obtain ⟨params, hvalue⟩ := h.value
  exact (h.gone v (by rw [Subst.contains, hvalue]; rfl)).2.2

/-- The context of the root. -/
def context : SplitTree → Telescope
  | .split Γ _ _ => Γ
  | .leaf site _ => site.context
  | .inspect site _ _ => site.context
  | .absurd Γ _ _ _ => Γ

end SplitTree

mutual

/-- Every node is well scoped, where the root has the given arguments and goal.
The tree of an inspection has a root of its own, with variables as arguments. -/
def SplitTree.Scoped : SplitTree → (args : List Term) → (goal : Term) → Prop
  | .split Γ v branches, args, goal =>
    SplitTree.NodeScoped Γ args goal ∧ (v ∈ Γ.vars ∧ ∃ a ∈ args, a.occurs v = true) ∧
      branches.Scoped v args goal
  | .leaf site _, args, goal =>
    SplitTree.NodeScoped site.context args goal ∧ site.args = args ∧ site.goal = goal
  | .inspect site _ tree, args, goal =>
    SplitTree.NodeScoped site.context args goal ∧ site.args = args ∧ site.goal = goal ∧
      ∃ goal', tree.Scoped tree.context.args goal'
  | .absurd Γ _ args' goal', args, goal =>
    SplitTree.NodeScoped Γ args goal ∧ args' = args ∧ goal' = goal

/-- A substitution leads to every branch, and the branches are well scoped. -/
def SplitBranches.Scoped : SplitBranches → (v : Var) → (args : List Term) → (goal : Term) → Prop
  | .nil, _, _, _ => True
  | .cons ctor fields tree rest, v, args, goal =>
    (∃ σ args' goal', SplitTree.Leads v args goal ctor fields tree.context args' goal' σ ∧
      tree.Scoped args' goal') ∧
    rest.Scoped v args goal

end

lemma SplitTree.Scoped.nodup : {tree : SplitTree} → tree.Scoped args goal → tree.context.vars.Nodup
  | .split _ _ _, h | .leaf _ _, h | .inspect _ _ _, h | .absurd _ _ _ _, h => h.1.nodup

mutual

/-- No variable is split whose type mentions it. -/
def SplitTree.unknotted : SplitTree → Bool
  | .split Γ v branches => (Γ.type? v).all (fun type => !type.occurs v) && branches.unknotted
  | .leaf _ _ => true
  | .inspect _ _ tree => tree.unknotted
  | .absurd _ _ _ _ => true

def SplitBranches.unknotted : SplitBranches → Bool
  | .nil => true
  | .cons _ _ tree rest => tree.unknotted && rest.unknotted

end

/-! ### Problems -/

namespace Problem

/-- The context is in dependency order and has distinct variables, and arguments
and goal mention no others. -/
structure Scoped (p : Problem) : Prop where
  nodup : p.context.vars.Nodup
  ordered : p.context.Ordered
  args : ∀ a ∈ p.args, a.Over p.context.reach
  goal : p.goal.Over p.context.reach

variable {p : Problem}

lemma Scoped.node (h : p.Scoped) : SplitTree.NodeScoped p.context p.args p.goal where
  nodup := h.nodup
  args a ha _ hx := (h.args a ha).occurs (mem_freeVars.1 hx)
  goal _ hx := h.goal.occurs (mem_freeVars.1 hx)

lemma SplitFree.args_below (h : p.SplitFree n) : ∀ a ∈ p.args, a.Over (.below n) :=
  fun a ha => (h.args a ha).below

/-- A variable of a scoped problem may be split if its type does not mention it. -/
lemma Scoped.splittable (h : p.Scoped) (hclosed : sig.Closed)
    (hp : p.SplitFree n) (hv : (p.context.type? v).all (fun type => !type.occurs v) = true) :
    ({ sig } : Env).Splittable p.context v n where
  closed := hclosed.body
  ctor := hclosed.ctor
  nodup := h.nodup
  ordered := h.ordered
  behind x hx := by
    obtain ⟨e, he, rfl⟩ := mem_map.1 hx
    exact (hp.context e he).1
  unknotted type htype := by simpa [htype] using hv

section

variable {p : Problem}
  (hr : Env.Refined env p.context v k r l) (hsplit : env.Splittable p.context v k)
  (hpq : p.Refines r n m q)

include hr hsplit hpq

lemma Scoped.refines (h : p.Scoped) : q.Scoped := by
  have hmaps := hr.subst_maps hsplit
  constructor
  · rw [hpq.context]
    exact hr.context_nodup hsplit
  · rw [hpq.context]
    exact hr.context_ordered hsplit
  · intro a ha
    obtain ⟨b, hb, hab⟩ := mem_of_forall₂ hpq.args ha
    rw [hpq.context]
    exact hab.over hmaps (h.args b hb)
  · rw [hpq.context]
    exact hpq.goal.over hmaps h.goal

lemma Scoped.leads (h : p.Scoped) :
    SplitTree.Leads v p.args p.goal r.ctor r.fields q.context q.args q.goal r.subst := by
  have hq := h.refines hr hsplit hpq
  have hleft : ∀ x ∈ q.context.vars, r.subst.get? x = none := by
    rw [hpq.context]
    exact hr.subst_left hsplit
  -- A variable that is replaced is not left, and nothing mentions what is not left.
  have hnot {x : Var} (hx : r.subst.contains x = true) {t : Term} (ht : t.Over q.context.reach) :
      x ∉ t.freeVars := fun hmem => by
    have hnone := hleft x (ht.occurs (mem_freeVars.1 hmem))
    simp [Subst.contains, hnone] at hx
  have happlied {t u : Term} (h : r.subst.Applied n m t u) : r.subst.Gives t u := by
    obtain ⟨j, -, -, rfl⟩ := h
    exact ⟨j, rfl⟩
  exact ⟨hpq.args.imp fun _ _ => happlied, happlied hpq.goal, hr.subst_value hsplit, hleft,
    fun x hx => ⟨fun a ha => hnot hx (hq.args a ha), hnot hx hq.goal,
      fun e he => hnot hx (hq.ordered.over e he)⟩⟩

end

end Problem

variable {p : FunctionProblem}

lemma FunctionProblem.problem_scoped (htype : p.type.Over .closed)
    (hnodup : p.params.vars.Nodup) : p.problem.Scoped := by
  rw [← pis_ofTypeUpTo p.arity p.type, over_pis] at htype
  obtain ⟨hparams, hgoal⟩ := htype
  refine ⟨hnodup, ordered_iff.2 hparams.orderedIn, fun a ha => ?_, ?_⟩
  · obtain ⟨e, he, rfl⟩ := mem_map.1 ha
    exact mem_vars he
  · exact hgoal.weaken fun x hx => hx.resolve_right id

lemma FunctionProblem.problem_splitFree (htype : p.type.SplitFree n)
    (hlocals : p.locals.SplitFree n) : p.problem.SplitFree n := by
  obtain ⟨hparams, hgoal⟩ := splitFree_ofTypeUpTo p.arity htype
  exact ⟨hparams, hgoal, Term.splitFree_hereditary.args hparams, hlocals⟩

/-! ### Runs -/

namespace Compile

variable {target : SplitTarget}

/-- Settling a row makes a tree with the context of the problem at its root. -/
def Roots (settle : ReachedRow → Compile SplitTree) : Prop :=
  ∀ ⦃r : ReachedRow⦄ ⦃w : Workspace⦄ ⦃n : Nat⦄ ⦃tree : SplitTree⦄ ⦃w' : Workspace⦄ ⦃m : Nat⦄,
    Yields (settle r) w n tree w' m → tree.context = r.problem.context

lemma leaf_roots (job : Job) (fuel : Nat) : Roots (leaf job fuel) := by
  intro r w n tree w' m h
  cases fuel with
  | zero => exact (yields_outOfFuel h).elim
  | succ fuel => cases leaf_settles h <;> rfl

variable {n m : Nat} {p : Problem}

lemma Splits.context_eq (hroots : Roots settle)
    (h : Splits target settle w n p rows tree reached w' m) : tree.context = p.context := by
  cases h with
  | settled _ hyields => exact hroots hyields
  | exhausted | empty | split => rfl

/-- Settling a row of a scoped problem makes a scoped tree of it. -/
def Scopes (settle : ReachedRow → Compile SplitTree) : Prop :=
  ∀ ⦃r : ReachedRow⦄ ⦃w : Workspace⦄ ⦃n : Nat⦄ ⦃tree : SplitTree⦄ ⦃w' : Workspace⦄ ⦃m : Nat⦄,
    w.sig.SplitFree n → w.sig.Closed → r.problem.SplitFree n → r.locals.SplitFree n →
    r.problem.Scoped → tree.unknotted = true → Yields (settle r) w n tree w' m →
    tree.Scoped r.problem.args r.problem.goal

mutual

/-- Leaves are over the variables of the splits above them. -/
lemma Splits.scoped (hgrows : Grows root settle) (hroots : Roots settle)
    (hsettle : Scopes settle) {w w' : Workspace} {n m : Nat} {p : Problem}
    {rows : List (Nat × Row)} {tree : SplitTree}
    (hsig : w.sig.SplitFree n) (hclosed : w.sig.Closed) (hp : p.SplitFree n) (hscoped : p.Scoped)
    (hknots : tree.unknotted = true) : Splits target settle w n p rows tree reached w' m →
    tree.Scoped p.args p.goal
  | .settled (k := k) hdecide hyields => by
    have hk : n ≤ k := Env.decideRows_forward _ _ hdecide
    exact hsettle (hsig.mono hk) hclosed (hp.mono hk)
      (Env.decideRows_splitFree hsig.keeps hp hdecide) hscoped hknots hyields
  | .exhausted _ _ | .empty _ _ => ⟨hscoped.node, rfl, rfl⟩
  | .split (k := k) (l := l) (v := v) hdecide hrefine hall => by
    have hk : n ≤ k := Env.decideRows_forward _ _ hdecide
    have hl : k ≤ l := Env.refinements_forward _ hrefine
    obtain ⟨hrs⟩ := Env.refinements_yields hrefine
    have hoccurs := Env.decideRows_occurs hclosed.body hp.args_below hdecide
    rw [SplitTree.unknotted, Bool.and_eq_true] at hknots
    -- The variable may be split since its type does not mention it.
    have hsplit := hscoped.splittable hclosed (hp.mono hk) hknots.1
    refine ⟨hscoped.node, ⟨Env.refinements_mem hrefine, hoccurs⟩, ?_⟩
    exact SplitsAll.scoped hgrows hroots hsettle (hsig.mono (by omega)) hclosed (hsig.mono hk)
      (hp.mono hk) hscoped hsplit hrs.refined (by omega) hknots.2 hall

lemma SplitsAll.scoped (hgrows : Grows root settle) (hroots : Roots settle)
    (hsettle : Scopes settle) {w w' : Workspace} {n m : Nat} {p : Problem} {rows : List (Nat × Row)}
    (hsig : w.sig.SplitFree n) (hclosed : w.sig.Closed)
    (hsig' : sig.SplitFree k) (hp : p.SplitFree k) (hscoped : p.Scoped)
    (hsplit : ({ sig } : Env).Splittable p.context v k)
    (hrs : ∀ r ∈ rs, Nonempty (Env.Refined { sig } p.context v k r l)) (hln : l ≤ n)
    (hknots : branches.unknotted = true) :
    SplitsAll target settle w n p rows rs branches reached w' m → branches.Scoped v p.args p.goal
  | .nil _ _ _ _ => trivial
  | .cons (r := r) _ hsplits hall => by
    obtain ⟨⟨hr⟩, hrs⟩ := forall_mem_cons.1 hrs
    have hpq := p.refine_refines r n
    rw [SplitBranches.unknotted, Bool.and_eq_true] at hknots
    have hk := hpq.le
    have hq := hr.problem_splitFree hsig' hp hln hpq
    have htree := Splits.scoped hgrows hroots hsettle (hsig.mono hk) hclosed hq
      (hscoped.refines hr hsplit hpq) hknots.1 hsplits
    -- The branches after this one are split in the workspace that it leaves.
    have hfirst := (Workspace.Extends.of_eq hk rfl rfl).trans
      (hsplits.grown hgrows (hsig.mono hk) hq).1
    have hrest := SplitsAll.scoped hgrows hroots hsettle (hfirst.splitFree hsig)
      (hfirst.closed hclosed) hsig' hp hscoped hsplit hrs (hln.trans hfirst.le) hknots.2 hall
    have hleads := hscoped.leads hr hsplit hpq
    rw [← hsplits.context_eq hroots] at hleads
    exact ⟨⟨_, _, _, hleads, htree⟩, hrest⟩

end

lemma leaf_grows (job : Job) (fuel : Nat) : Grows job.root (leaf job fuel) :=
  fun _ _ _ _ _ _ hsig hp hlocals h => leaf_forms fuel hsig hp hlocals h

/-- The type of the auxiliary of an inspection is closed, and its arguments are
distinct. -/
lemma Inspects.scoped {span : Span}
    {rows : List Row}
    (i : Inspects job fuel p locals span scrut equation rows w n node tree w' m)
    (hp : p.SplitFree n) (hlocals : locals.SplitFree n) (hscoped : p.Scoped)
    (htype : i.problem.type.SplitFree i.checkedSupply) :
    i.problem.type.Over .closed ∧ i.problem.params.vars.Nodup := by
  -- The type was checked in the empty context.
  have hnil : (Telescope.reach []).Le .closed :=
    ⟨fun _ hx => (not_mem_nil hx).elim, fun _ hc => hc, fun hs => hs⟩
  have hproblem : i.problem.type = i.type ∧ i.problem.params = i.params := by
    rw [FunctionProblem.params, i.problem_eq]
    rw [i.type_eq, ofTypeUpTo_pis]
    exact ⟨rfl, rfl⟩
  refine ⟨?_, ?_⟩
  · rw [hproblem.1] at htype ⊢
    exact (Env.check_over htype i.checks).mono hnil
  · -- The value and the equation are variables that were new.
    obtain ⟨hresolved, -⟩ := Surface.Scope.term_splitFree hlocals scrut i.resolves
    have htyped := Env.synth_forward _ _ i.types
    have hold : ∀ x ∈ p.context.vars, x.id < i.typedSupply := fun x hx => by
      obtain ⟨e, he, rfl⟩ := mem_map.1 hx
      exact lt_of_lt_of_le (hp.context e he).1 (by omega)
    have hvars : i.params.vars = p.context.vars ++ [node.scrutVar, node.equationVar] := by
      rw [i.params_eq]
      simp [Telescope.vars]
    rw [hproblem.2, hvars, i.scrutVar_eq, i.equationVar_eq]
    refine nodup_append.2 ⟨hscoped.nodup, by simp, ?_⟩
    rintro x hx y hy rfl
    have hlt := hold x hx
    simp only [mem_cons, not_mem_nil, or_false] at hy
    rcases hy with rfl | rfl
    · exact lt_irrefl _ hlt
    · exact Nat.not_succ_lt_self hlt

/-- Compiling a function of a closed type with distinct arguments makes a scoped tree. -/
def FunctionScopes (job : Job) (fuel : Nat) : Prop :=
  ∀ ⦃p : FunctionProblem⦄ ⦃f : CompiledFunction⦄ ⦃w w' : Workspace⦄ ⦃n m : Nat⦄,
    w.sig.SplitFree n → w.sig.Closed → p.type.SplitFree n → p.type.Over .closed →
    p.locals.SplitFree n → Name.Under job.root p.name → p.params.vars.Nodup →
    f.tree.unknotted = true → Yields (function job fuel p) w n f w' m →
    f.tree.context = p.params ∧ f.tree.Scoped p.params.args p.problem.goal

/-- Inspecting a term in a scoped problem makes a scoped tree of its own. -/
def InspectionScopes (job : Job) (fuel : Nat) : Prop :=
  ∀ ⦃p : Problem⦄ ⦃locals : Surface.Locals⦄ ⦃span : Span⦄ ⦃scrut : Surface.Term⦄
    ⦃equation : Option Surface.Ident⦄ ⦃rows : List Row⦄ ⦃result : Inspection × SplitTree⦄
    ⦃w w' : Workspace⦄ ⦃n m : Nat⦄, w.sig.SplitFree n → w.sig.Closed → p.SplitFree n →
    locals.SplitFree n → p.Scoped → result.2.unknotted = true →
    Yields (inspection job fuel p locals span scrut equation rows) w n result w' m →
    ∃ goal, result.2.Scoped result.2.context.args goal

lemma function_scopes (hleaf : Scopes (leaf job fuel)) : FunctionScopes job (fuel + 1) := by
  intro p f w w' n m hsig hclosed htype hover hlocals hname hnodup hknots h
  obtain ⟨run⟩ := function_run h
  -- The function stands in the signature, without a body, while its rows are split.
  have hdeclared := run.claims.opening_extends htype hname
  rw [run.finishes.tree_eq] at hknots ⊢
  refine ⟨run.splits.context_eq (leaf_roots job fuel), ?_⟩
  exact run.splits.scoped (leaf_grows job fuel) (leaf_roots job fuel) hleaf
    (hdeclared.splitFree hsig) (hdeclared.closed hclosed)
    (FunctionProblem.problem_splitFree htype hlocals)
    (FunctionProblem.problem_scoped hover hnodup) hknots

lemma leaf_scopes (hinspection : InspectionScopes job fuel) :
    Scopes (leaf job (fuel + 1)) := by
  intro r w n tree w' m hsig hclosed hp hlocals hscoped hknots h
  cases leaf_settles h with
  | absurd _ _ | term _ _ _ _ _ => exact ⟨hscoped.node, rfl, rfl⟩
  | @inspect scrut equation rows k l _ locals w₁ _ node tree _ hforced haux hinspect =>
    have hk := Forward.closed.checkForced_has _ _ _ _ hforced
    have hcontext := Term.splitFree_hereditary.telescope_mono hp.context hk
    obtain ⟨hextends, hlocals'⟩ := auxiliaries_forms fuel (hsig.mono hk) hcontext
      (hlocals.mono hk) haux
    have hfirst := (Workspace.Extends.of_eq hk rfl rfl).trans hextends
    have htree := hinspection (hfirst.splitFree hsig) (hfirst.closed hclosed)
      (hp.mono hfirst.le) hlocals' hscoped hknots hinspect
    exact ⟨hscoped.node, rfl, rfl, htree⟩

lemma inspection_scopes (hfunction : FunctionScopes job fuel) :
    InspectionScopes job (fuel + 1) := by
  intro p locals span scrut equation rows result w w' n m hsig hclosed hp hlocals hscoped hknots h
  obtain ⟨i⟩ := inspection_yields h
  obtain ⟨hn, htype, hlocals', -⟩ := i.splitFree hsig hp hlocals
  obtain ⟨hover, hnodup⟩ := i.scoped hp hlocals hscoped htype
  have hname : Name.Under job.root i.problem.name := by
    rw [i.problem_eq, i.name_eq]
    exact .inr ⟨_, rfl⟩
  have hsig' : ({ w with inspections := w.inspections + 1 } : Workspace).sig.SplitFree
      i.checkedSupply := hsig.mono hn
  rw [i.tree_eq] at hknots ⊢
  obtain ⟨hcontext, htree⟩ := hfunction hsig' hclosed htype hover hlocals' hname hnodup hknots
    i.compiles
  rw [hcontext]
  exact ⟨_, htree⟩

/-- A function settles its rows with less fuel, a row its inspection, and an
inspection its function. -/
lemma scopes (job : Job) (fuel : Nat) :
    FunctionScopes job fuel ∧ Scopes (leaf job fuel) ∧ InspectionScopes job fuel := by
  induction fuel with
  | zero =>
    refine ⟨?_, ?_, ?_⟩
    · intro p f w w' n m _ _ _ _ _ _ _ _ h
      exact (yields_outOfFuel h).elim
    · intro r w n tree w' m _ _ _ _ _ _ h
      exact (yields_outOfFuel h).elim
    · intro p locals span scrut equation rows result w w' n m _ _ _ _ _ _ h
      exact (yields_outOfFuel h).elim
  | succ fuel ih =>
    obtain ⟨hfunction, hleaf, hinspection⟩ := ih
    exact ⟨function_scopes hleaf, leaf_scopes hinspection, inspection_scopes hfunction⟩

/-- The tree that is built for a function of a closed type, in a workspace of closed
entries, where types have no case splits as they have none in the source: if no
variable is split whose type mentions it, every node is well scoped, those of
inspections included, exactly if the arguments of the function are distinct. -/
theorem splitRows_scoped_iff {job : Job} {target : SplitTarget} {depth fuel : Nat}
    {p : FunctionProblem} {w w' : Workspace} {n m : Nat} {tree : SplitTree} {reached : List Nat}
    (hsig : w.sig.SplitFree n) (hclosed : w.sig.Closed) (htype : p.type.SplitFree n)
    (hover : p.type.Over .closed) (hlocals : p.locals.SplitFree n)
    (hrun : Yields (splitRows target (leaf job depth) fuel p.problem) w n (tree, reached) w' m)
    (hknots : tree.unknotted = true) :
    tree.context = p.params ∧
      (tree.Scoped p.params.args p.problem.goal ↔ p.params.vars.Nodup) := by
  have hsplits := splits_of_split fuel hrun
  have hcontext := hsplits.context_eq (leaf_roots job depth)
  refine ⟨hcontext, fun hscoped => ?_, fun hnodup => ?_⟩
  · have hroot := hscoped.nodup
    rwa [hcontext] at hroot
  · exact hsplits.scoped (leaf_grows job depth) (leaf_roots job depth) (scopes job depth).2.1
      hsig hclosed (FunctionProblem.problem_splitFree htype hlocals)
      (FunctionProblem.problem_scoped hover hnodup) hknots

end Compile

/-! ### Instances -/

/-- Whether the types of all constructors are closed. -/
def Signature.closedCtors (sig : Signature) : Bool :=
  sig.entries.all fun entry =>
    match entry.2 with
    | .ctor k => k.type.freeVars.isEmpty
    | _ => true

lemma Signature.closed_of_closedCtors {sig : Signature} (hctors : sig.closedCtors = true)
    (hbodies : sig.closedBodies = true) : sig.Closed := by
  refine ⟨fun c k hk => ?_, Env.closed_of_closedBodies hbodies⟩
  unfold Signature.ctor? at hk
  split at hk
  · next k' hget =>
      cases hk
      obtain ⟨e, hfind, he⟩ := Option.map_eq_some_iff.1 hget
      have hfree := all_eq_true.1 hctors e (mem_of_find?_eq_some hfind)
      simp only [he, List.isEmpty_iff] at hfree
      exact over_iff_freeVars.2 (by simp [hfree])
  · cases hk

namespace Trees

def nat : Term := .global "Nat"

def one : Term := .app (.global "succ") (.global "zero")

def A : Var := ⟨3, "A"⟩

def a : Var := ⟨4, "a"⟩

def k : Var := ⟨5, "k"⟩

def n : Var := ⟨6, "n"⟩

def x : Var := ⟨7, "x"⟩

def e : Var := ⟨8, "e"⟩

def m : Var := ⟨9, "m"⟩

def box (type : Term) : Term := .app (.global "Box") type

/-- Equality, numbers, boxes, and a number for every box of a number. -/
def sig : Signature :=
  (((Signature.prelude.value 0).addFamily ⟨"Nat", [], .univ, ["zero", "succ"]⟩
      [⟨"zero", "Nat", 0, 0, nat⟩, ⟨"succ", "Nat", 0, 1, .pi k nat nat⟩]).addFamily
    ⟨"Box", [(A, .univ)], .pi A .univ .univ, ["box"]⟩
      [⟨"box", "Box", 1, 1, .pi A .univ (.pi a (.var A) (box (.var A)))⟩]).addPostulate
    "unbox" (.pi a (box nat) nat)

lemma sig_splitFree : sig.SplitFree 10 := by
  have hprelude : (Signature.prelude.value 0).SplitFree 10 :=
    (Signature.prelude_splitFree 0).2.mono (by decide)
  refine ((hprelude.addFamily ?_ ?_).addFamily ?_ ?_).addPostulate _ ?_
  all_goals simp [nat, box, A, a, k, Term.SplitFree]

lemma sig_closed : sig.Closed := Signature.closed_of_closedCtors (by decide) (by decide)

def workspace : Workspace := { sig, base := {}, held := [] }

def job : Job where
  root := "f"
  transparent := false
  auxiliaries := []
  options := {}

/-- A row that answers with a name. -/
def row (patterns : List Pattern) (answer : Name) : Row :=
  .mk default patterns (.term (.name default answer)) []

def problem (type : Term) (arity : Nat) (rows : List Row) : FunctionProblem where
  name := "f"
  span := default
  type := type
  arity := arity
  rows := rows
  locals := []

def blank : Pattern := .wildcard default

def zero : Pattern := .ctor default "zero" []

def succ : Pattern := .ctor default "succ" [.var default "m"]

def refl : Pattern := .ctor default "refl" []

def build (p : FunctionProblem) : Compile (SplitTree × List Nat) :=
  Compile.splitRows ⟨p.name, p.span, p.rows⟩ (Compile.leaf job 8) 8 p.problem

/-- Whether a tree is built that passes a test. -/
def builds (p : FunctionProblem) (test : SplitTree → Bool) : Bool :=
  ((build p).run.run workspace 10).any fun r =>
    match r.1.1 with
    | .ok built => test built.1
    | .error _ => false

lemma yields_of_builds (h : builds p test = true) : ∃ tree reached w' m,
      Compile.Yields (build p) workspace 10 (tree, reached) w' m ∧ test tree = true := by
  obtain ⟨⟨⟨result, w'⟩, m⟩, hrun, htest⟩ := (Option.any_eq_true _ _).1 h
  cases result with
  | ok built => exact ⟨built.1, built.2, w', m, hrun, htest⟩
  | error _ => cases htest

/-- A number that an equation solves, and another that is split. -/
def solved : FunctionProblem :=
  problem (.pi n nat (.pi e (.eq nat (.var n) one) (.pi m nat nat))) 3
    [row [blank, refl, zero] "zero", row [blank, refl, succ] "m"]

theorem splitRows_scoped_iff_solved : ∃ tree reached w' m,
    Compile.Yields (build solved) workspace 10 (tree, reached) w' m ∧
      solved.params.vars.Nodup ∧ tree.unknotted = true ∧
      tree.context = solved.params ∧ tree.Scoped solved.params.args solved.problem.goal := by
  have hbuilds : builds solved SplitTree.unknotted = true := by decide +kernel
  obtain ⟨tree, reached, w', m, hrun, hknots⟩ := yields_of_builds hbuilds
  have hnodup : solved.params.vars.Nodup := by decide
  refine ⟨tree, reached, w', m, hrun, hnodup, hknots, ?_⟩
  suffices h : tree.context = solved.params ∧
      (tree.Scoped solved.params.args solved.problem.goal ↔ solved.params.vars.Nodup) from
    ⟨h.1, h.2.2 hnodup⟩
  refine Compile.splitRows_scoped_iff sig_splitFree sig_closed ?_ ?_ ?_ hrun hknots
  · simp [solved, problem, nat, one, Term.eq, Term.apps, n, e, Trees.m, Term.SplitFree]
  · exact over_iff_freeVars.2 (by decide)
  · simp [solved, problem, Surface.Locals.SplitFree]

/-- Two numbers under one variable. -/
def repeated : FunctionProblem :=
  problem (.pi n nat (.pi n nat nat)) 2 [row [blank, zero] "zero", row [blank, succ] "m"]

/-- If a variable is repeated, a branch puts the constructor in both places, and
keeps the variable that was split. -/
theorem splitRows_repeated :
    sig.SplitFree 10 ∧ sig.Closed ∧ repeated.type.SplitFree 10 ∧ repeated.type.Over .closed ∧
      ∃ tree reached w' m, Compile.Yields (build repeated) workspace 10 (tree, reached) w' m ∧
        tree.unknotted = true ∧ ¬ tree.Scoped repeated.params.args repeated.problem.goal := by
  refine ⟨sig_splitFree, sig_closed, ?_, over_iff_freeVars.2 (by decide), ?_⟩
  · simp [repeated, problem, nat, n, Term.SplitFree]
  · have hbuilds : builds repeated
        (fun tree => tree.unknotted && tree.context.vars == [n, n]) = true := by decide +kernel
    obtain ⟨tree, reached, w', m, hrun, htest⟩ := yields_of_builds hbuilds
    rw [Bool.and_eq_true, beq_iff_eq] at htest
    refine ⟨tree, reached, w', m, hrun, htest.1, fun hscoped => ?_⟩
    have hnodup := hscoped.nodup
    rw [htest.2] at hnodup
    exact absurd hnodup (by decide)

/-- A box whose type mentions a number, and an equation that solves the number by
the box. -/
def knotted : FunctionProblem :=
  problem (.pi n nat (.pi x (box (.app (.lam k nat nat) (.var n)))
      (.pi e (.eq nat (.var n) (.app (.global "unbox") (.var x))) (.pi m nat nat)))) 4
    [row [blank, blank, refl, zero] "zero",
      row [blank, .ctor default "box" [blank], blank, blank] "zero"]

/-- Whether the box, once it is split, is still mentioned by the type of its content.
The equation is split first, and the last number, which has to be a successor, next. -/
def lingers : SplitTree → Bool
  | .split _ _ (.cons _ _
      (.split _ _ (.cons _ _ _ (.cons _ _ (.split _ v (.cons _ _ tree _)) _))) _) =>
      tree.context.any fun entry => entry.2.occurs v
  | _ => false

/-- If the type of a variable mentions it, what is left after its split does so too. -/
lemma splitRows_knotted :
    knotted.params.vars.Nodup ∧ ∃ tree reached w' m,
      Compile.Yields (build knotted) workspace 10 (tree, reached) w' m ∧
        ¬ tree.Scoped knotted.params.args knotted.problem.goal := by
  have hbuilds : builds knotted lingers = true := by decide +kernel
  obtain ⟨tree, reached, w', m, hrun, htest⟩ := yields_of_builds hbuilds
  refine ⟨by decide, tree, reached, w', m, hrun, fun hscoped => ?_⟩
  unfold lingers at htest
  split at htest
  · obtain ⟨-, -, ⟨_, _, _, -, hequation⟩, -⟩ := hscoped
    obtain ⟨-, -, -, ⟨_, _, _, -, hnumber⟩, -⟩ := hequation
    obtain ⟨-, -, ⟨_, _, _, hleads, -⟩, -⟩ := hnumber
    obtain ⟨entry, hentry, hoccurs⟩ := any_eq_true.1 htest
    exact hleads.split_gone entry hentry (mem_freeVars.2 hoccurs)
  · cases htest

end Trees

end Clausal
