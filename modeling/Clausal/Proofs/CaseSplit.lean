import Clausal.Proofs.Generalisation
import Clausal.Proofs.Module
import Clausal.Proofs.Overlap

/-!
# Elimination principles and case splits

An elimination principle asks for one hypothesis for each case of its function.
Splitting a goal takes the principle apart again by the numbers that were recorded
with it, and these always fit.
-/

namespace Clausal

open Env Eval List Subst Telescope

variable {args : List Term} {base : RuleBase} {function : Name} {sig : Signature}
  {hs : List Hypothesis} {n : Nat} {node : CaseNode} {target type : Term}

/-! ### Cases and their arguments -/

mutual

lemma SplitTree.cases_scopes : (tree : SplitTree) →
    (scopes : List Elimination.Enclosing) → ∀ node ∈ tree.cases function arity scopes,
      scopes <:+ node.scopes
  | .split _ _ branches, scopes => branches.cases_scopes scopes
  | .leaf _ _, scopes | .absurd _ _ _ _, scopes => by
    intro node hnode
    obtain rfl := mem_singleton.1 hnode
    exact suffix_rfl
  | .inspect site _ tree, scopes => fun node hnode =>
    (suffix_cons site.enclosing scopes).trans (tree.cases_scopes _ node hnode)

lemma SplitBranches.cases_scopes : (branches : SplitBranches) →
    (scopes : List Elimination.Enclosing) → ∀ node ∈ branches.cases function arity scopes,
      scopes <:+ node.scopes
  | .nil, _ => by simp [SplitBranches.cases]
  | .cons _ _ tree rest, scopes => fun node hnode => (mem_append.1 hnode).elim
      (tree.cases_scopes scopes node) (rest.cases_scopes scopes node)

end

/-- The arguments of a case of the function, or of the outermost leaf around it. -/
def CaseNode.rootArgs (node : CaseNode) : List Term :=
  (node.scopes.getLast?.map (·.args)).getD node.args

mutual

lemma Grown.rootArgs_length {function : Name} {n : Nat}
    : Grown n p tree m →
    ∀ node ∈ tree.cases function arity [], node.rootArgs.length = p.args.length
  | .leaf _ _ _ _, node, hnode | .absurd _ _ _, node, hnode => by
    rw [mem_singleton.1 hnode]
    rfl
  | .inspect _ _ _ _ _, node, hnode => by
    obtain ⟨inner, hscopes⟩ := SplitTree.cases_scopes _ [_] node hnode
    rw [CaseNode.rootArgs, ← hscopes, getLast?_append]
    rfl
  | .split _ _ _ _ _ _ hall, node, hnode => hall.rootArgs_length node hnode

lemma GrownAll.rootArgs_length {function : Name} {n : Nat}
    : GrownAll n p rs branches m →
    ∀ node ∈ branches.cases function arity [], node.rootArgs.length = p.args.length
  | .nil _ _ => by simp [SplitBranches.cases]
  | .cons href htree hall => fun node hnode => (mem_append.1 hnode).elim
      (fun hfirst => (htree.rootArgs_length node hfirst).trans href.args.length_eq.symm)
      (hall.rootArgs_length node)

end

/-! ### Scoping -/

/-- Within both. -/
def Reach.inter (S R : Reach) : Reach where
  vars x := S.vars x ∧ R.vars x
  globals c := S.globals c ∧ R.globals c
  splits := S.splits ∧ R.splits

lemma Reach.inter_bind_le (S R : Reach) (vs : List Var) :
    ((S.bind vs).inter (R.bind vs)).Le ((S.inter R).bind vs) := by
  refine ⟨fun x hx => ?_, fun _ hc => hc, fun hs => hs⟩
  rcases hx with ⟨hx | hS, hx' | hR⟩
  · exact .inl hx
  · exact .inl hx
  · exact .inl hx'
  · exact .inr ⟨hS, hR⟩

mutual

lemma Term.Over.inter : {t : Term} → t.Over S → t.Over R → t.Over (S.inter R)
  | .univ, _, _ => trivial
  | .var _, hS, hR | .global _, hS, hR => ⟨hS, hR⟩
  | .pi v _ _, hS, hR | .lam v _ _, hS, hR =>
    ⟨hS.1.inter hR.1, (hS.2.inter hR.2).mono (Reach.inter_bind_le S R [v])⟩
  | .app _ _, hS, hR | .ann _ _, hS, hR => ⟨hS.1.inter hR.1, hS.2.inter hR.2⟩
  | .case _ _, hS, hR => ⟨⟨hS.1, hR.1⟩, hS.2.1.inter hR.2.1, hS.2.2.inter hR.2.2⟩
  | .absurd scrut, hS, hR => Term.Over.inter (t := scrut) hS hR

lemma Branches.Over.inter : {bs : Branches} → bs.Over S → bs.Over R → bs.Over (S.inter R)
  | .nil, _, _ => trivial
  | .cons _ fields _ _, hS, hR =>
    ⟨(hS.1.inter hR.1).mono (Reach.inter_bind_le S R fields), hS.2.inter hR.2⟩

end

namespace CompiledFunction.Made

variable {f : CompiledFunction}

lemma arity_eq (h : f.Made m) : h.problem.params.length = f.elimination.arity :=
  h.drafts.arity.symm

lemma args_over (h : f.Made m) (hu : u ∈ h.drafts.used)
    (hnode : node ∈ f.tree.cases f.name h.problem.params.length [])
    (hstates : h.drafts.plan.States h.drafts.started h.drafts.built node ihs args u) :
    ∀ a ∈ args, a.Over node.context.reach := by
  have hfree := h.cases_splitFree node hnode
  obtain ⟨hstarted, -, -⟩ := h.drafts.supply
  obtain ⟨-, hnew⟩ := h.drafts.params_new
  -- The principle was checked, so the type of the hypothesis is well-scoped.
  have hchecked := h.checks
  rw [h.drafts.term] at hchecked
  have hwithin := check_lams_within
    (h.drafts.type_splitFree h.params_splitFree h.cases_splitFree).1 hchecked
  have htype := hwithin.over (u.var, u.type) (mem_cons_of_mem _ (mem_map_of_mem hu))
  rw [hstates.type] at htype
  obtain ⟨-, hscoped⟩ := Term.over_apps.1 (over_pis.1 htype).2
  -- The arguments came from the node before the principle was drafted.
  obtain ⟨k, -, -, rfl⟩ := hstates.rooted
  have hold := Elimination.toRoot_over (S := .below h.draftingSupply)
    (fun s hs a ha => (hfree.scopes s hs a ha).below) (fun a ha => (hfree.args a ha).below) k
  intro a ha
  refine ((hscoped a ha).inter (hold a ha)).mono
    ⟨fun x hx => ?_, fun _ _ => trivial, fun _ => trivial⟩
  obtain ⟨hx, hxid⟩ := hx
  change x.id < h.draftingSupply at hxid
  rcases hx with hx | hx
  · rw [Telescope.vars, map_append] at hx
    refine (mem_append.1 hx).resolve_right fun hih => ?_
    have hfresh := (hstates.fresh x hih).1
    omega
  · -- Neither the motive nor a hypothesis was there then.
    have hmem : x ∈ h.drafts.plan.motive :: h.drafts.plan.hypotheses := by
      rw [← h.drafts.used_vars]
      replace hx := hx.resolve_right not_mem_nil
      change x ∈ h.drafts.plan.motive ::
        (h.drafts.used.map fun u => (u.var, u.type)).map Prod.fst at hx
      rwa [map_map] at hx
    have hfresh := (hnew x hmem).1
    omega

end CompiledFunction.Made

/-! ### What a principle asks for -/

/-- A hypothesis asks for a case: it takes the variables of the node and the
motive at the recursive calls, and gives the motive at arguments of the
function that mention variables of the node only. -/
structure CaseNode.Asks (motive : Var) (arity : Nat) (node : CaseNode) (ihs : Telescope)
    (args : List Term) (type : Term) : Prop where
  type : type = Telescope.pis (node.context ++ ihs) ((Term.var motive).apps args)
  ihs : ihs.map (·.2) = node.calls.map (Term.var motive).apps
  length : args.length = arity
  reach : ∀ a ∈ args, a.Over node.context.reach
  rooted : ∃ supply, args = (Elimination.toRoot node.args node.scopes).value supply

/-- The shape that is recorded for a case. -/
def CaseNode.shape (node : CaseNode) : Hypothesis :=
  ⟨node.absurd, node.context.length, node.calls.length⟩

/-- A principle for a function with a tree: it takes a motive and a hypothesis
for each case, under variables of their own, and gives the motive at all
arguments. -/
structure Elimination.Fits (function : Name) (tree : SplitTree) (e : Elimination) : Prop where
  count : e.hypotheses.length = tree.numCases
  shapes : e.hypotheses = (tree.cases function e.arity []).map CaseNode.shape
  type : ∃ (motive : Var) (motiveParams hypotheses Γ : Telescope),
    e.type = Telescope.pis ((motive, Telescope.pis motiveParams .univ) :: hypotheses)
      (Telescope.pis Γ ((Term.var motive).apps (Telescope.args Γ))) ∧
    motiveParams.length = e.arity ∧ Γ.length = e.arity ∧ (motive :: hypotheses.vars).Nodup ∧
    Forall₂ (fun node type => ∃ ihs args, node.Asks motive e.arity ihs args type)
      (tree.cases function e.arity []) (hypotheses.map (·.2))

variable {f : CompiledFunction} {m count : Nat}

/-- What a hypothesis states is what its case asks for. -/
lemma CompiledFunction.Made.asks (h : f.Made m) (hu : u ∈ h.drafts.used)
    (hnode : node ∈ f.tree.cases f.name h.problem.params.length [])
    (hstates : h.drafts.plan.States h.drafts.started h.drafts.built node ihs args u) :
    node.Asks h.drafts.plan.motive f.elimination.arity ihs args u.type where
  type := hstates.type
  ihs := hstates.motives
  length := by
    obtain ⟨k, -, -, rfl⟩ := hstates.rooted
    have hroot := h.grown.rootArgs_length node hnode
    rw [Elimination.toRoot_length]
    refine hroot.trans ?_
    rw [← h.arity_eq]
    exact length_map ..
  reach := h.args_over hu hnode hstates
  rooted := by
    obtain ⟨k, -, -, hargs⟩ := hstates.rooted
    exact ⟨k, hargs⟩

lemma CompiledFunction.Made.fits (h : f.Made m) : f.elimination.Fits f.name f.tree := by
  have hstates := h.drafts.builds.states
  have hshapes : Forall₂ (· = ·) (h.drafts.used.map (·.shape))
      ((f.tree.cases f.name h.problem.params.length []).map CaseNode.shape) := by
    rw [forall₂_map_left_iff, forall₂_map_right_iff]
    exact hstates.flip.imp fun u node ⟨ihs, args, hu⟩ => hu.shape
  rw [forall₂_eq_eq_eq, ← h.drafts.shapes, h.arity_eq] at hshapes
  refine ⟨?_, hshapes, h.drafts.plan.motive, h.drafts.motiveParams,
    h.drafts.used.map fun u => (u.var, u.type), h.problem.params, h.drafts.type,
    h.drafts.motiveParams_length.trans h.arity_eq, h.arity_eq, ?_, ?_⟩
  · rw [hshapes, length_map, f.tree.cases_length]
  · have hvars : Telescope.vars (h.drafts.used.map fun u => (u.var, u.type)) =
        h.drafts.plan.hypotheses := by
      rw [← h.drafts.used_vars, Telescope.vars, map_map]
      rfl
    rw [hvars]
    exact h.drafts.params_new.1
  · obtain ⟨hlen, hzip⟩ := forall₂_iff_zip.1 hstates
    rw [map_map, forall₂_map_right_iff, ← h.arity_eq]
    refine forall₂_iff_zip.2 ⟨hlen, fun hpair => ?_⟩
    obtain ⟨hnode, hu⟩ := of_mem_zip hpair
    obtain ⟨ihs, args, hstate⟩ := hzip hpair
    refine ⟨ihs, args, ?_⟩
    rw [h.arity_eq]
    exact h.asks hu hnode hstate

/-! ### Taking types apart -/

/-- The type begins with this many function types. -/
def Term.Takes : Nat → Term → Prop
  | 0, _ => True
  | count + 1, .pi _ _ cod => cod.Takes count
  | _ + 1, _ => False

lemma Telescope.takes_pis (Γ : Telescope) (body : Term) : (Γ.pis body).Takes Γ.length := by
  induction Γ with
  | nil => trivial
  | cons e Γ ih => exact ih

lemma Term.Takes.assign {t : Term} (h : t.Takes count) (σ : Assignment) (n : Nat) :
    ((t.assign σ).value n).Takes count := by
  induction count generalizing t σ n with
  | zero => trivial
  | succ count ih =>
    cases t with
    | pi v dom cod => exact ih h _ _
    | _ => exact h.elim

/-- Substitution keeps how many arguments each parameter takes. -/
lemma Telescope.assign_pis (Γ : Telescope) (body : Term) (σ : Assignment) (n : Nat) :
    ∃ (Δ : Telescope) (rest : Term), ((Γ.pis body).assign σ).value n = Δ.pis rest ∧
      ∀ counts : List Nat, Forall₂ Term.Takes counts (Γ.map (·.2)) →
        Forall₂ Term.Takes counts (Δ.map (·.2)) := by
  induction Γ generalizing σ n with
  | nil => exact ⟨[], _, rfl, fun _ h => h⟩
  | cons e Γ ih =>
    obtain ⟨v, dom⟩ := e
    obtain ⟨Δ, rest, hrest, hΔ⟩ := ih (σ.bind [v] [⟨(dom.assign σ).next n, v.name⟩])
      ((dom.assign σ).next n + 1)
    refine ⟨(⟨(dom.assign σ).next n, v.name⟩, (dom.assign σ).value n) :: Δ, rest, ?_, ?_⟩
    · exact congrArg (Term.pi _ _) hrest
    · intro counts hcounts
      cases hcounts with
      | cons hfirst hothers => exact .cons (hfirst.assign σ n) (hΔ _ hothers)

/-- The hypotheses of a case after those of a context, each one reduced; what is
left is the conclusion. -/
def Env.enter (env : Env) : Telescope → Subst → Telescope → Term → Eval Goal
  | [], σ, Γ, conclusion => do
      let type ← σ.apply conclusion
      return ⟨Γ, type⟩
  | (v, dom) :: Δ, σ, Γ, conclusion => do
      let w ← v.refresh
      let dom ← σ.apply dom
      let dom ← env.normalise dom
      let σ ← σ.insert v (.var w)
      enter env Δ σ (Γ ++ [(w, dom)]) conclusion

lemma Env.introduce_takes (env : Env) (h : type.Takes count) (σ : Subst) (Γ : Telescope) :
    env.introduce count σ Γ type =
      some <$> env.enter (Telescope.ofTypeUpTo count type).1 σ Γ
        (Telescope.ofTypeUpTo count type).2 := by
  induction count generalizing type σ Γ with
  | zero =>
    simp [introduce, Telescope.ofTypeUpTo, enter]
  | succ count ih =>
    cases type with
    | pi v dom cod =>
      simp only [introduce, Telescope.ofTypeUpTo, enter, map_bind]
      congr
      funext w
      congr
      funext dom'
      congr
      funext dom''
      congr
      funext σ'
      exact ih h σ' _
    | _ => exact h.elim

/-! ### Splitting a goal -/

/-- The subgoal of a case, whose hypothesis has the given type. -/
def Split.subgoal (base : RuleBase) (sig : Signature) (function : Name) (Γ : Telescope)
    (h : Hypothesis) (type : Term) : Eval Subgoal := do
  let (Δ, conclusion) := Telescope.ofTypeUpTo (h.numParams + h.numIhs) type
  let goal ← ({ sig } : Env).enter Δ .empty Γ conclusion
  let s ← goal.simplify base sig [function]
  return { goal := s.goal, numIhs := h.numIhs, absurd := h.absurd, closed := s.closed }

/-- The split of a goal by a principle for a motive, with nothing refused. -/
def Goal.splitBy (base : RuleBase) (sig : Signature) (goal : Goal) (function : Name)
    (e : Elimination) (motive : Var) (motiveParams : Telescope) (rest : Term) (args : List Term) :
    Eval CaseSplit := do
  let params ← motiveParams.freshen
  let (context, body) ← goal.generalise args params
  let type ← (single motive (Telescope.lams params body)).apply rest
  let hypotheses := (Telescope.ofTypeUpTo e.hypotheses.length type).1
  let subgoals ← (e.hypotheses.zip hypotheses).mapM fun (h, _, type) =>
    Split.subgoal base sig function context h type
  return { eliminator := e.name, motive := Telescope.lams params body, subgoals }

namespace Split

variable {α β : Type}

lemma run_lift_bind (x : Eval α) (f : α → Split β) :
    ((liftM x : Split α) >>= f).run = x >>= fun a => (f a).run := by
  change (Except.ok <$> x >>= ExceptT.bindCont f : Eval (Except CaseSplitError β)) = _
  rw [bind_map_left]
  rfl

lemma run_bind_of_ok (h : x.run = Except.ok <$> y) (f : α → Split β) :
    (x >>= f).run = y >>= fun a => (f a).run := by
  change ((x.run : Eval (Except CaseSplitError α)) >>= ExceptT.bindCont f) = _
  rw [h, bind_map_left]
  rfl

/-- No subgoal is refused if the types of the hypotheses are long enough. -/
lemma subgoals_run (base : RuleBase) (sig : Signature) (function : Name)
    (refused : CaseSplitError) (Γ : Telescope) {Δ : Telescope} (rest : Term)
    (h : Forall₂ Term.Takes (hs.map fun h => h.numParams + h.numIhs) (Δ.map (·.2))) :
    (subgoals base sig function refused Γ hs (Δ.pis rest)).run =
      Except.ok <$> (hs.zip Δ).mapM fun (h, _, type) => subgoal base sig function Γ h type := by
  induction hs generalizing Δ with
  | nil => simp [subgoals]
  | cons h hs ih =>
    cases Δ with
    | nil => cases h
    | cons e Δ =>
      obtain ⟨hfirst, hrest⟩ := forall₂_cons.1 h
      change (subgoals base sig function refused Γ (_ :: hs)
        (.pi e.1 e.2 (Telescope.pis Δ rest))).run = _
      rw [subgoals, introduce_takes _ hfirst, zip_cons_cons, mapM_cons,
        run_lift_bind, bind_map_left]
      simp only [subgoal, run_lift_bind, run_bind_of_ok (ih hrest), map_bind, bind_assoc,
        pure_bind, map_pure]
      rfl

lemma run_liftFresh_bind (x : Fresh α) (f : α → Split β) (n : Nat) :
    ((liftM x : Split α) >>= f).run n = (f (x.value n)).run (x.next n) := rfl

lemma liftFresh_bind (x : Fresh α) (f : α → Eval β) (n : Nat) :
    ((liftM x : Eval α) >>= f) n = f (x.value n) (x.next n) := rfl

lemma map_liftFresh_bind (g : β → γ) (x : Fresh α) (f : α → Eval β) (n : Nat) :
    (g <$> ((liftM x : Eval α) >>= f)) n = (g <$> f (x.value n)) (x.next n) := by
  rw [map_bind]
  rfl

end Split

lemma Telescope.ofType_pis_univ (Γ : Telescope) : Telescope.ofType (Γ.pis .univ) = (Γ, .univ) := by
  induction Γ with
  | nil => rfl
  | cons e Γ ih =>
    change (((e.1, e.2) :: (ofType (pis Γ .univ)).1, (ofType (pis Γ .univ)).2) :
      Telescope × Term) = _
    rw [ih]

lemma Env.whnf_pi (sig : Signature) (v : Var) (dom cod : Term) :
    ({ sig } : Env).whnf (.pi v dom cod) = pure (.pi v dom cod) := rfl

lemma Env.instantiate_pi (sig : Signature) (v : Var) (dom cod arg : Term) :
    ({ sig } : Env).instantiate (.pi v dom cod) [arg] =
      some <$> (liftM ((single v arg).apply cod) : Eval Term) := by
  rw [instantiate, whnf_pi, pure_bind]
  simp only [instantiate]
  exact (map_eq_pure_bind _ _).symm

/-- The hypotheses of a principle that fits are as long as their shapes say. -/
lemma Elimination.Fits.takes {e : Elimination} (hfits : e.Fits function tree)
    (h : Forall₂ (fun node type => ∃ ihs args, node.Asks motive e.arity ihs args type)
      (tree.cases function e.arity []) types) :
    Forall₂ Term.Takes (e.hypotheses.map fun h => h.numParams + h.numIhs) types := by
  rw [hfits.shapes, map_map, forall₂_map_left_iff]
  refine h.imp fun node type ⟨ihs, args, hasks⟩ => ?_
  have hlen : (node.context ++ ihs).length = node.context.length + node.calls.length := by
    rw [length_append, ← ihs.length_map (·.2), hasks.ihs, length_map]
  have htakes := takes_pis (node.context ++ ihs) ((Term.var motive).apps args)
  rw [hlen] at htakes
  exact hasks.type ▸ htakes

/-- The principle of a compiled function is in place: nothing has taken its name
in the signature, nor its place in the rule base. -/
structure CompiledFunction.InPlace (f : CompiledFunction) (base : RuleBase) (sig : Signature) :
    Prop where
  type : sig.type? f.elimination.name = some f.elimination.type
  eliminator : base.eliminator? f.name = some (f.elimination.eliminator f.name)

/-- A goal can be split by a function whose principle fits and is in place. -/
lemma Goal.caseSplit_run (hfits : f.elimination.Fits f.name f.tree) (hplace : f.InPlace base sig)
    (goal : Goal) (htarget : target.globalSpine? = some (f.name, args))
    (hargs : args.length = f.elimination.arity) :
    ∃ motive motiveParams rest,
      f.elimination.type = .pi motive (Telescope.pis motiveParams .univ) rest ∧
      (goal.caseSplit base sig target).run = Except.ok <$>
        goal.splitBy base sig f.name f.elimination motive motiveParams rest args := by
  obtain ⟨motive, motiveParams, hypotheses, Γ, htype, hparams, -, -, hcases⟩ := hfits.type
  have hpi : f.elimination.type = .pi motive (Telescope.pis motiveParams .univ)
      (Telescope.pis hypotheses (Telescope.pis Γ ((Term.var motive).apps (Telescope.args Γ)))) :=
    htype
  refine ⟨motive, motiveParams, _, hpi, ?_⟩
  have htakes := hfits.takes hcases
  have hplaced := hplace.type
  rw [hpi] at hplaced
  funext n
  simp only [Goal.caseSplit, htarget, hplace.eliminator, Elimination.eliminator, hplaced,
    ofType_pis_univ, instantiate_pi]
  rw [if_neg (by simp [hargs]), Split.run_liftFresh_bind]
  -- The parameters of the motive are as many as the arguments.
  have hlen : (motiveParams.freshen.value n).length = args.length := by
    rw [hargs, ← hparams]
    exact (freshenWith_spec .empty motiveParams n).2.1
  rw [if_neg (by simp [hlen]), Split.run_liftFresh_bind]
  rw [Goal.splitBy, Split.map_liftFresh_bind, Split.map_liftFresh_bind, Split.run_lift_bind,
    bind_map_left]
  generalize (goal.generalise args (motiveParams.freshen.value n)).value
    (motiveParams.freshen.next n) = parts
  generalize (goal.generalise args (motiveParams.freshen.value n)).next
    (motiveParams.freshen.next n) = n'
  generalize motiveParams.freshen.value n = params
  obtain ⟨context, body⟩ := parts
  -- The motive goes into the types of the hypotheses, which keep their length.
  obtain ⟨Δ, rest, happly, hΔ⟩ := assign_pis hypotheses
    (Telescope.pis Γ ((Term.var motive).apps (Telescope.args Γ)))
    (single motive (Telescope.lams params body)).entries n'
  have hasked := hΔ _ htakes
  have hcount : Δ.length = f.elimination.hypotheses.length := by
    have hlengths := hasked.length_eq
    rw [length_map, length_map] at hlengths
    exact hlengths.symm
  have hvalue : ((single motive (Telescope.lams params body)).apply (Telescope.pis hypotheses
      (Telescope.pis Γ ((Term.var motive).apps (Telescope.args Γ))))).value n' = Δ.pis rest :=
    happly
  rw [Split.map_liftFresh_bind, Split.liftFresh_bind, hvalue, Split.run_bind_of_ok
    (Split.subgoals_run base sig f.name _ context rest hasked), ← hcount, ofTypeUpTo_pis,
    map_bind]
  rfl

lemma Env.introduce_context {env : Env}
    (h : Returns (env.introduce count σ Γ type) n (some goal) m) : ∃ Δ, goal.context = Γ ++ Δ := by
  induction count generalizing σ Γ type n with
  | zero =>
    simp only [introduce, returns_bind, returns_pure] at h
    obtain ⟨t, k, -, heq, -⟩ := h
    exact ⟨[], by rw [← Option.some.inj heq, append_nil]⟩
  | succ count ih =>
    cases type with
    | pi v dom cod =>
      simp only [introduce, returns_bind] at h
      obtain ⟨w, k, -, dom', l, -, dom'', i, -, τ, j, -, h⟩ := h
      obtain ⟨Δ, hΔ⟩ := ih h
      exact ⟨(w, dom'') :: Δ, by rw [hΔ, append_assoc, singleton_append]⟩
    | _ =>
      cases (returns_pure.1 h).1

lemma Goal.simplify_context {goal : Goal} (h : Returns (goal.simplify base sig names) n s m) :
    s.goal.context = goal.context := by
  simp only [Goal.simplify, returns_bind, returns_pure] at h
  obtain ⟨type, k, -, type', l, -, closed, i, -, rfl, -⟩ := h
  rfl

/-- There is one subgoal for each hypothesis, in a context that begins as it was. -/
lemma Split.subgoals_parts
    (h : Eval.Yields (Split.subgoals base sig function refused Γ hs type) n gs m) :
    Forall₂ (fun (h : Hypothesis) (g : Subgoal) => g.numIhs = h.numIhs ∧ g.absurd = h.absurd)
      hs gs ∧ ∀ g ∈ gs, ∃ Δ, g.goal.context = Γ ++ Δ := by
  induction hs generalizing type gs n m with
  | nil =>
    obtain ⟨rfl, -⟩ := yields_pure.1 h
    exact ⟨.nil, forall_mem_nil _⟩
  | cons shape hs ih =>
    cases type with
    | pi v dom rest =>
      simp only [Split.subgoals, yields_bind, yields_lift] at h
      obtain ⟨entered, k, hentered, h⟩ := h
      cases entered with
      | none => exact (yields_throw h).elim
      | some goal =>
        simp only [yields_bind, yields_lift, yields_pure] at h
        obtain ⟨s, l, hs, others, i, hothers, rfl, rfl⟩ := h
        obtain ⟨hshapes, hcontexts⟩ := ih hothers
        refine ⟨.cons ⟨rfl, rfl⟩ hshapes, forall_mem_cons.2 ⟨?_, hcontexts⟩⟩
        exact Goal.simplify_context hs ▸ introduce_context hentered
    | _ => exact (yields_throw h).elim

/-- What a case split is made of: parameters that are a copy of those of the principle, the
goal generalised over them, and a subgoal for each hypothesis. -/
lemma Goal.caseSplit_parts {goal : Goal} (htarget : target.globalSpine? = some (function, args))
    (h : Eval.Yields (goal.caseSplit base sig target) n s m) :
    ∃ e motive type rest, base.eliminator? function = some e ∧
      sig.type? e.name = some (.pi motive type rest) ∧
      (((Telescope.ofType type).1.freshen.value n).length = args.length) ∧
      s.motive = Telescope.lams ((Telescope.ofType type).1.freshen.value n)
        ((goal.generalise args ((Telescope.ofType type).1.freshen.value n)).value
          ((Telescope.ofType type).1.freshen.next n)).2 ∧
      Forall₂ (fun (h : Hypothesis) (g : Subgoal) => g.numIhs = h.numIhs ∧ g.absurd = h.absurd)
        e.hypotheses s.subgoals ∧ ∀ g ∈ s.subgoals, ∃ Δ, g.goal.context = goal.kept args ++ Δ := by
  simp only [Goal.caseSplit, htarget] at h
  split at h
  · exact (yields_throw h).elim
  next e he =>
  split at h
  · exact (yields_throw h).elim
  next type htype =>
  split at h
  · simp at h
  split at h
  next motive motiveType rest =>
      simp only [yields_bind, yields_liftFresh] at h
      obtain ⟨params, k, ⟨rfl, rfl⟩, h⟩ := h
      split at h
      · simp at h
      next hlen =>
      simp only [yields_bind, yields_liftFresh] at h
      obtain ⟨parts, l, ⟨rfl, rfl⟩, instantiated, i, -, h⟩ := h
      cases instantiated with
      | none => exact (yields_throw h).elim
      | some type =>
        simp only [yields_bind, yields_pure] at h
        obtain ⟨gs, j, hgs, rfl, rfl⟩ := h
        refine ⟨e, motive, motiveType, rest, he, htype, by simpa using hlen, rfl, ?_⟩
        exact Split.subgoals_parts hgs
  · exact (yields_throw h).elim

/-! ### Modules -/

/-- The principle of every compiled function asks for its cases, and any goal
can be split by any full application of the function while the principle is in
place: nothing is refused, and the subgoals are the cases. -/
theorem elaborate_caseSplit {base : RuleBase} {items : List Surface.Item} {options : CompileOptions}
    {n m : Nat} {e : Elaboration} (h : Returns (elaborate base items options) n e m)
    {f : CompiledFunction} (hf : f ∈ e.functions) :
    f.elimination.Fits f.name f.tree ∧
      ∀ (base' : RuleBase) (sig : Signature), f.InPlace base' sig →
      ∀ (goal : Goal) (target : Term) (args : List Term),
        target.globalSpine? = some (f.name, args) → args.length = f.elimination.arity →
        (∃ motive motiveParams rest,
          f.elimination.type = .pi motive (Telescope.pis motiveParams .univ) rest ∧
          (goal.caseSplit base' sig target).run = Except.ok <$>
            goal.splitBy base' sig f.name f.elimination motive motiveParams rest args) ∧
        ∀ (supply : Nat) (result : Except CaseSplitError CaseSplit) (left : Nat),
          Returns (goal.caseSplit base' sig target).run supply result left →
          ∃ s, result = .ok s ∧ List.Forall₂ (fun (h : Hypothesis) (g : Subgoal) =>
            g.numIhs = h.numIhs ∧ g.absurd = h.absurd) f.elimination.hypotheses s.subgoals := by
  obtain ⟨k, ⟨hmade⟩⟩ := elaborate_made h hf
  refine ⟨hmade.fits, fun base' sig hplace goal target args htarget hargs => ?_⟩
  obtain ⟨motive, motiveParams, rest, htype, hrun⟩ :=
    goal.caseSplit_run hmade.fits hplace htarget hargs
  refine ⟨⟨motive, motiveParams, rest, htype, hrun⟩, fun supply result left hreturns => ?_⟩
  have hok := hreturns
  rw [hrun, map_eq_pure_bind] at hok
  obtain ⟨s, j, -, hpure⟩ := returns_bind.1 hok
  obtain ⟨rfl, -⟩ := returns_pure.1 hpure
  obtain ⟨e, -, -, -, he, -, -, -, hshapes, -⟩ := Goal.caseSplit_parts htarget hreturns
  obtain rfl := Option.some.inj (hplace.eliminator.symm.trans he)
  exact ⟨s, rfl, hshapes⟩

namespace CaseSplit

deriving instance DecidableEq for Eliminator

instance (f : CompiledFunction) (base : RuleBase) (sig : Signature) :
    Decidable (f.InPlace base sig) :=
  decidable_of_iff (sig.type? f.elimination.name = some f.elimination.type ∧
    base.eliminator? f.name = some (f.elimination.eliminator f.name))
    ⟨fun h => ⟨h.1, h.2⟩, fun h => ⟨h.type, h.eliminator⟩⟩

open Overlap (nat)

/-- The parity of a number, by an inspection of its predecessor. -/
def parity : Surface.Definition :=
  .mk default ⟨default, "parity"⟩ false [.mk [⟨default, "n"⟩] (.name default "N")]
    (.name default "N")
    [.mk default [.name default "zero"] (.term (.name default "zero")) [],
      .mk default [.ctor default ⟨default, "succ"⟩ [.name default "n"]]
        (.inspect (.name default "n") none
          [.mk default [.name default "zero"]
              (.term (.app default (.name default "succ") (.name default "zero"))) [],
            .mk default [.ctor default ⟨default, "succ"⟩ [.name default "m"]]
              (.term (.app default (.name default "parity") (.name default "m"))) []])
        []]

/-- What elaboration makes of numbers and their parity. -/
def elaborated? : Option (Elaboration × Nat) :=
  elaborate {} [.family nat, .definition parity] {} 0

/-- Parity has three cases, one with an induction hypothesis, and any goal can
be split by the parity of any term. -/
theorem parity_splits : ∃ e m f,
    Returns (elaborate {} [.family nat, .definition parity] {}) 0 e m ∧ f ∈ e.functions ∧
      f.elimination.hypotheses.map (fun h => (h.numIhs, h.absurd)) =
        [(0, false), (0, false), (1, false)] ∧
      ∀ (goal : Goal) (t : Term) (supply : Nat) (result : Except CaseSplitError CaseSplit)
        (left : Nat),
        Returns (goal.caseSplit e.base e.sig (.app (.global "parity") t)).run supply result left →
        ∃ s, result = .ok s ∧ s.subgoals.length = 3 := by
  have hmodule : (elaborated?.map fun r => r.1.functions.any fun f =>
      f.name == "parity" && f.elimination.arity == 1 && decide (f.InPlace r.1.base r.1.sig) &&
        f.elimination.hypotheses.map (fun h => (h.numIhs, h.absurd)) ==
          [(0, false), (0, false), (1, false)]) = some true := by decide +kernel
  obtain ⟨⟨e, m⟩, he, hany⟩ := Option.map_eq_some_iff.1 hmodule
  obtain ⟨f, hf, hfacts⟩ := any_eq_true.1 hany
  simp only [Bool.and_eq_true, beq_iff_eq, decide_eq_true_eq] at hfacts
  obtain ⟨⟨⟨hname, harity⟩, hplace⟩, hshapes⟩ := hfacts
  refine ⟨e, m, f, he, hf, hshapes, fun goal t supply result left hreturns => ?_⟩
  obtain ⟨-, hsplits⟩ := elaborate_caseSplit he hf
  have htarget : (Term.app (.global "parity") t).globalSpine? = some (f.name, [t]) := by
    rw [hname]
    rfl
  obtain ⟨-, hsubgoals⟩ := hsplits e.base e.sig hplace goal _ [t] htarget harity.symm
  obtain ⟨s, rfl, hs⟩ := hsubgoals supply result left hreturns
  refine ⟨s, rfl, ?_⟩
  have hcount := congrArg List.length hshapes
  rw [length_map] at hcount
  exact hs.length_eq.symm.trans hcount

end CaseSplit
end Clausal
