import Clausal.Compilation.Elimination
import Clausal.Proofs.SplitFree
import Mathlib.Data.List.Nodup

/-!
# The hypotheses of an elimination principle

`SplitTree.cases` lists the nodes that ask for a hypothesis, from left to right, with
the trees of inspections in place.  Building the proof uses the variables set aside
for the hypotheses one by one.
-/

namespace Clausal

open Elimination Fresh List Subst Telescope

variable {args : List Term} {α β : Type}

/-- A leaf or an absurd node. -/
structure CaseNode where
  context : Telescope
  /-- The arguments of the function whose tree has the node. -/
  args : List Term
  /-- The arguments of the full recursive calls of the right-hand side. -/
  calls : List (List Term)
  absurd : Bool
  /-- The leaves that inspect a term around the node, the innermost first. -/
  scopes : List Enclosing

def LeafSite.enclosing (site : LeafSite) : Enclosing :=
  ⟨Telescope.vars site.context, site.args⟩

mutual

/-- The leaves and absurd nodes of a tree from left to right, those of
inspections included. -/
def SplitTree.cases (function : Name) (arity : Nat) (scopes : List Enclosing) :
    SplitTree → List CaseNode
  | .split _ _ branches => branches.cases function arity scopes
  | .leaf site body =>
    [⟨site.context, site.args, body.recursiveCalls function arity, false, scopes⟩]
  | .inspect site _ tree => tree.cases function arity (site.enclosing :: scopes)
  | .absurd Γ _ args _ => [⟨Γ, args, [], true, scopes⟩]

def SplitBranches.cases (function : Name) (arity : Nat) (scopes : List Enclosing) :
    SplitBranches → List CaseNode
  | .nil => []
  | .cons _ _ tree rest => tree.cases function arity scopes ++ rest.cases function arity scopes

end

mutual

lemma SplitTree.cases_length (function : Name) (arity : Nat) :
    (tree : SplitTree) → (scopes : List Enclosing) →
      (tree.cases function arity scopes).length = tree.numCases
  | .split _ _ branches, scopes => branches.cases_length function arity scopes
  | .leaf _ _, _ | .absurd _ _ _ _, _ => rfl
  | .inspect site _ tree, scopes => tree.cases_length function arity (site.enclosing :: scopes)

lemma SplitBranches.cases_length (function : Name) (arity : Nat) :
    (branches : SplitBranches) → (scopes : List Enclosing) →
      (branches.cases function arity scopes).length = branches.numCases
  | .nil, _ => rfl
  | .cons _ _ tree rest, scopes => by
    rw [SplitBranches.cases, SplitBranches.numCases, length_append, tree.cases_length,
      rest.cases_length]

end

/-- The parts of a case are behind the supply and split nothing. -/
structure CaseNode.SplitFree (n : Nat) (node : CaseNode) : Prop where
  context : node.context.All Term.SplitFree n
  args : ∀ a ∈ node.args, a.SplitFree n
  calls : ∀ args ∈ node.calls, ∀ a ∈ args, a.SplitFree n
  scopes : ∀ scope ∈ node.scopes, ∀ a ∈ scope.args, a.SplitFree n

/-! ### Arguments seen from the root -/

namespace Elimination

lemma toRoot_next (scopes : List Enclosing) (args : List Term) (n : Nat) :
    n ≤ (toRoot args scopes).next n := by
  induction scopes generalizing args n with
  | nil => exact le_refl n
  | cons scope scopes ih =>
    simp only [toRoot, next_bind]
    exact le_trans (applyAll_spec _ scope.args n).1 (ih _ _)

lemma toRoot_length (scopes : List Enclosing) (args : List Term) (n : Nat) :
    ((toRoot args scopes).value n).length = ((scopes.getLast?.map (·.args)).getD args).length := by
  induction scopes generalizing args n with
  | nil => rfl
  | cons scope scopes ih =>
    simp only [toRoot, value_bind]
    have hlen := (applyAll_spec (.ofPairs (scope.params.zip args)) scope.args n).2.length_eq
    rw [ih]
    cases scopes with
    | nil => exact hlen.symm
    | cons next scopes => simp [getLast?_cons]

lemma ofPairs_maps {vs : List Var} (hargs : ∀ a ∈ args, a.Over S) :
    (ofPairs (vs.zip args)).entries.Maps S S := by
  refine ⟨fun x hx => ?_, fun _ hc => hc, fun hs => hs⟩
  cases hget : (ofPairs (vs.zip args)).get? x with
  | none =>
    rw [Assignment.image_eq_var hget]
    exact hx
  | some t =>
    rw [Assignment.image_eq hget]
    exact hargs t (of_mem_zip (get?_ofPairs hget)).2

lemma toRoot_over (hscopes : ∀ scope ∈ scopes, ∀ a ∈ scope.args, a.Over S)
    (hargs : ∀ a ∈ args, a.Over S) (n : Nat) : ∀ a ∈ (toRoot args scopes).value n, a.Over S := by
  induction scopes generalizing args n with
  | nil => exact hargs
  | cons scope scopes ih =>
    obtain ⟨hscope, hscopes⟩ := forall_mem_cons.1 hscopes
    refine ih hscopes (fun a ha => ?_) _
    obtain ⟨b, hb, hab⟩ := mem_of_forall₂ (applyAll_spec _ scope.args n).2 ha
    exact hab.over (ofPairs_maps hargs) (hscope b hb)

lemma toRoot_splitFree (hscopes : ∀ scope ∈ scopes, ∀ a ∈ scope.args, a.SplitFree n)
    (hargs : ∀ a ∈ args, a.SplitFree n) :
    ∀ a ∈ (toRoot args scopes).value n, a.SplitFree ((toRoot args scopes).next n) := by
  induction scopes generalizing args n with
  | nil => exact hargs
  | cons scope scopes ih =>
    obtain ⟨hscope, hscopes⟩ := forall_mem_cons.1 hscopes
    obtain ⟨hnext, happ⟩ :=
      applyAll_spec (.ofPairs (scope.params.zip args)) scope.args n
    have hσ : (ofPairs (scope.params.zip args)).All Term.SplitFree n := fun x t hget =>
      hargs t (of_mem_zip (get?_ofPairs hget)).2
    refine ih (fun s hs a ha => (hscopes s hs a ha).mono hnext) fun a ha => ?_
    obtain ⟨b, hb, hab⟩ := mem_of_forall₂ happ ha
    exact hσ.applied Term.splitFree_hereditary hab (hscope b hb)

/-- Arguments of a node as those of the root, computed between two supplies. -/
def Rooted (scopes : List Enclosing) (n m : Nat) (args args' : List Term) : Prop :=
  ∃ k, n ≤ k ∧ (toRoot args scopes).next k ≤ m ∧ args' = (toRoot args scopes).value k

lemma Rooted.mono (h : Rooted scopes n m args args') (hn : n' ≤ n) (hm : m ≤ m') :
    Rooted scopes n' m' args args' := by
  obtain ⟨k, hk, hnext, heq⟩ := h
  exact ⟨k, hn.trans hk, hnext.trans hm, heq⟩

/-! ### Hypotheses -/

namespace Plan

variable (plan : Plan)

lemma ihParams_spec (calls : List (List Term)) (n : Nat) :
    n ≤ (plan.ihParams calls).next n ∧
      ((plan.ihParams calls).value n).map (·.2) = calls.map plan.motiveAt ∧
      ∀ v ∈ Telescope.vars ((plan.ihParams calls).value n),
        n ≤ v.id ∧ v.id < (plan.ihParams calls).next n := by
  induction calls generalizing n with
  | nil => exact ⟨le_refl n, rfl, by simp [ihParams, Telescope.vars]⟩
  | cons call calls ih =>
    obtain ⟨hnext, htypes, hvars⟩ := ih (n + 1)
    simp only [ihParams, next_bind, value_bind, next_fresh, value_fresh,
      next_pure, value_pure, map_cons, Telescope.vars, forall_mem_cons]
    refine ⟨by omega, by rw [htypes], ⟨le_refl n, by omega⟩, fun v hv => ?_⟩
    have := hvars v hv
    omega

/-- What a hypothesis says: it takes the variables of its node and the motive at
the recursive calls, and gives the motive at the arguments of the node. -/
structure States (n m : Nat) (node : CaseNode) (ihs : Telescope) (args : List Term) (u : Used) :
    Prop where
  type : u.type = Telescope.pis (node.context ++ ihs) (plan.motiveAt args)
  shape : u.shape = ⟨node.absurd, node.context.length, node.calls.length⟩
  motives : ihs.map (·.2) = node.calls.map plan.motiveAt
  fresh : ∀ v ∈ ihs.vars, n ≤ v.id ∧ v.id < m
  rooted : Rooted node.scopes n m node.args args

variable {plan}

lemma States.mono (h : plan.States n m node ihs args u) (hn : n' ≤ n) (hm : m ≤ m') :
    plan.States n' m' node ihs args u where
  type := h.type
  shape := h.shape
  motives := h.motives
  fresh v hv := ⟨hn.trans (h.fresh v hv).1, lt_of_lt_of_le (h.fresh v hv).2 hm⟩
  rooted := h.rooted.mono hn hm

variable (plan)

/-- Hypotheses were used for some nodes, after `start` others and between two
supplies. -/
structure Builds (start n : Nat) (nodes : List CaseNode) (new : List Used) (m : Nat) : Prop where
  le : n ≤ m
  /-- The variables are taken in their order, as long as there are enough of them. -/
  vars : start + nodes.length ≤ plan.hypotheses.length →
    new.map (·.var) = (plan.hypotheses.drop start).take nodes.length
  states : Forall₂ (fun node u => ∃ ihs args, plan.States n m node ihs args u) nodes new

variable {plan}

lemma Builds.nil (start n : Nat) : plan.Builds start n [] [] n :=
  ⟨le_refl n, fun _ => rfl, .nil⟩

lemma Builds.mono (h : plan.Builds start n nodes new m) (hn : n' ≤ n) (hm : m ≤ m') :
    plan.Builds start n' nodes new m' where
  le := hn.trans (h.le.trans hm)
  vars := h.vars
  states := h.states.imp fun _ _ ⟨ihs, args, hu⟩ => ⟨ihs, args, hu.mono hn hm⟩

lemma Builds.append (h : plan.Builds start n nodes new k)
    (h' : plan.Builds (start + new.length) k later newer m) :
    plan.Builds start n (nodes ++ later) (new ++ newer) m where
  le := h.le.trans h'.le
  vars hlen := by
    have hnodes : new.length = nodes.length := h.states.length_eq.symm
    rw [length_append] at hlen
    rw [map_append, h.vars (by omega), h'.vars (by omega), length_append, take_add,
      drop_drop, hnodes]
  states := rel_append (h.mono (by omega) h'.le).states (h'.mono h.le (by omega)).states

/-- The run of a builder: its result, the hypotheses used since the start, and
the supply at the end. -/
def Runs {α : Type} (plan : Plan) (x : Build α) (nodes : List CaseNode) : Prop :=
  ∀ (used : List Used) (n : Nat), ∃ new,
    ((x.run used).value n).2 = used ++ new ∧
      plan.Builds used.length n nodes new ((x.run used).next n)

lemma Runs.bind (hx : plan.Runs x nodes) (hf : ∀ a, plan.Runs (f a) later) :
    plan.Runs (x >>= f) (nodes ++ later) := by
  intro used n
  obtain ⟨new, hnew, hbuilds⟩ := hx used n
  obtain ⟨newer, hnewer, hbuilds'⟩ :=
    hf ((x.run used).value n).1 ((x.run used).value n).2 ((x.run used).next n)
  refine ⟨new ++ newer, ?_, ?_⟩
  · rw [← append_assoc, ← hnew]
    exact hnewer
  · rw [hnew, length_append] at hbuilds'
    have hboth := hbuilds.append hbuilds'
    rw [← hnew] at hboth
    exact hboth

lemma Runs.pure {α : Type} (a : α) : plan.Runs (Pure.pure a : Build α) [] := fun used n =>
  ⟨[], (append_nil used).symm, .nil used.length n⟩

lemma Runs.lift {x : Fresh α} (hx : ∀ n, n ≤ x.next n) :
    plan.Runs (liftM x : Build α) [] := fun used n =>
  ⟨[], (append_nil used).symm, (Builds.nil used.length n).mono (by omega) (hx n)⟩

lemma Runs.then_pure (hx : plan.Runs x nodes) (f : α → β) :
    plan.Runs (x >>= fun a => Pure.pure (f a)) nodes := by
  have h := hx.bind fun a => @Runs.pure plan β (f a)
  rwa [append_nil] at h

lemma hypothesis_runs (Γ : Telescope) (args : List Term) (calls : List (List Term))
    (absurd : Bool) (scopes : List Enclosing) :
    plan.Runs (plan.hypothesis Γ args calls absurd scopes) [⟨Γ, args, calls, absurd, scopes⟩] := by
  intro used n
  obtain ⟨hnext, htypes, hvars⟩ := plan.ihParams_spec calls n
  have hroot := toRoot_next scopes args ((plan.ihParams calls).next n)
  refine ⟨[_], rfl, hnext.trans hroot, fun hlen => ?_,
    .cons ⟨(plan.ihParams calls).value n,
      (toRoot args scopes).value ((plan.ihParams calls).next n), ?_⟩
      .nil⟩
  · -- The variable at the next place, which is there.
    have hlt : used.length < plan.hypotheses.length := hlen
    have hvar : plan.hypotheses.getD used.length plan.motive = plan.hypotheses[used.length] := by
      rw [getD_eq_getElem?_getD, getElem?_eq_getElem hlt, Option.getD_some]
    rw [drop_eq_getElem_cons hlt]
    exact congrArg ([·]) hvar
  · exact {
      type := rfl
      shape := rfl
      motives := htypes
      fresh := fun v hv => ⟨(hvars v hv).1, lt_of_lt_of_le (hvars v hv).2 hroot⟩
      rooted := ⟨_, hnext, le_rfl, rfl⟩ }

mutual

/-- The proof that follows a tree uses a hypothesis for each of its cases. -/
lemma proof_runs : (tree : SplitTree) → (scopes : List Enclosing) →
    plan.Runs (plan.proof scopes tree) (tree.cases plan.function plan.arity scopes)
  | .split _ _ branches, scopes => by
    rw [proof, SplitTree.cases]
    exact (proofs_runs branches scopes).then_pure _
  | .absurd Γ _ args _, scopes => by
    rw [proof, SplitTree.cases]
    exact (hypothesis_runs Γ args [] true scopes).then_pure _
  | .leaf site body, scopes => by
    rw [proof, SplitTree.cases]
    exact (hypothesis_runs site.context site.args _ false scopes).then_pure _
  | .inspect site _ tree, scopes => by
    rw [proof, SplitTree.cases]
    exact (Runs.lift (toRoot_next scopes site.args)).bind fun args =>
      (proof_runs tree (site.enclosing :: scopes)).then_pure _

lemma proofs_runs : (branches : SplitBranches) → (scopes : List Enclosing) →
    plan.Runs (plan.proofs scopes branches) (branches.cases plan.function plan.arity scopes)
  | .nil, _ => by
    rw [proofs, SplitBranches.cases]
    exact .pure _
  | .cons _ _ tree rest, scopes => by
    rw [proofs, SplitBranches.cases]
    exact (proof_runs tree scopes).bind fun _ => (proofs_runs rest scopes).then_pure _

end

end Plan

/-! ### The drafted principle -/

lemma freshAll_spec (f : α → Name) (as : List α) (n : Nat) :
    (as.mapM fun a => Var.fresh (f a)).value n = (as.zipIdx n).map (fun a => ⟨a.2, f a.1⟩) ∧
      (as.mapM fun a => Var.fresh (f a)).next n = n + as.length := by
  induction as generalizing n with
  | nil => exact ⟨rfl, rfl⟩
  | cons a as ih =>
    obtain ⟨hvalue, hnext⟩ := ih (n + 1)
    rw [mapM_cons]
    simp only [value_bind, next_bind, value_fresh, next_fresh,
      value_pure, next_pure, hvalue, hnext, zipIdx_cons, map_cons,
      length_cons, true_and]
    omega

end Elimination

/-- Renaming a telescope keeps its length, and its types split no cases. -/
lemma Telescope.freshenWith_spec (σ : Subst) (Γ : Telescope) (n : Nat) :
    n ≤ (freshenWith σ Γ).next n ∧ ((freshenWith σ Γ).value n).length = Γ.length ∧
      (σ.All Term.SplitFree n → Γ.All Term.SplitFree n →
        ((freshenWith σ Γ).value n).All Term.SplitFree ((freshenWith σ Γ).next n)) := by
  have hP := Term.splitFree_hereditary
  induction Γ generalizing σ n with
  | nil => exact ⟨le_refl n, rfl, fun _ _ => by simp [freshenWith, All]⟩
  | cons e Γ ih =>
    obtain ⟨v, type⟩ := e
    have htype := apply_next σ type (n + 1)
    have hinsert := insert_next σ v (.var ⟨n, v.name⟩) ((σ.apply type).next (n + 1))
    simp only [freshenWith, next_bind, value_bind, next_refresh,
      value_refresh, next_pure, value_pure, length_cons]
    obtain ⟨hnext, hlen, hall⟩ := ih ((σ.insert v (.var ⟨n, v.name⟩)).value
      ((σ.apply type).next (n + 1))) ((σ.insert v (.var ⟨n, v.name⟩)).next
      ((σ.apply type).next (n + 1)))
    refine ⟨by omega, by rw [hlen], fun hσ hΓ => ?_⟩
    obtain ⟨⟨-, htypeFree⟩, hΓ⟩ := forall_mem_cons.1 hΓ
    have hσ' := hσ.mono hP (show n ≤ (σ.apply type).next (n + 1) by omega)
    have hvar : (Term.var ⟨n, v.name⟩).SplitFree ((σ.apply type).next (n + 1)) :=
      show n < _ by omega
    refine forall_mem_cons.2 ⟨⟨show n < _ by omega, ?_⟩, ?_⟩
    · exact hP.mono (by omega) (hP.apply (hσ.mono hP (by omega)) (htypeFree.mono (by omega)))
    · exact hall (hσ'.insert hP hvar) (hP.telescope_mono hΓ (by omega))

namespace Elimination

/-- How a principle was drafted. -/
structure Drafts (function : Name) (Γ : Telescope) (tree : SplitTree) (n : Nat) (e : Elimination)
    (m : Nat) where
  plan : Plan
  function_eq : plan.function = function
  arity_eq : plan.arity = Γ.length
  motive_id : plan.motive.id = n
  hypotheses_eq : plan.hypotheses =
    ((range tree.numCases).zipIdx (n + 1)).map fun i => ⟨i.2, s!"H{i.1 + 1}"⟩
  used : List Used
  started : Nat
  started_eq : started = n + 1 + tree.numCases
  built : Nat
  builds : plan.Builds 0 started (tree.cases function Γ.length []) used built
  proof : Term
  motiveParams : Telescope
  motiveParams_eq : motiveParams = (Telescope.freshen Γ).value built
  next_eq : m = (Telescope.freshen Γ).next built
  name : e.name = Name.qualify function "elim"
  type : e.type = Telescope.pis ((plan.motive, Telescope.pis motiveParams .univ) ::
    used.map fun h => (h.var, h.type)) (Telescope.pis Γ (plan.motiveAt (Telescope.args Γ)))
  term : e.term = Telescope.lams ((plan.motive, Telescope.pis motiveParams .univ) ::
    used.map fun h => (h.var, h.type)) (Telescope.lams Γ proof)
  arity : e.arity = Γ.length
  shapes : e.hypotheses = used.map (·.shape)

lemma draft_drafts (function : Name) (Γ : Telescope) (tree : SplitTree) (n : Nat) :
    Nonempty (Drafts function Γ tree n ((draft function Γ tree).value n)
      ((draft function Γ tree).next n)) := by
  obtain ⟨hvalue, hnext⟩ :=
    freshAll_spec (fun index => s!"H{index + 1}") (range tree.numCases) (n + 1)
  rw [length_range] at hnext
  let plan : Plan :=
    { function, name := Name.qualify function "elim", arity := Γ.length, motive := ⟨n, "P"⟩
      hypotheses := ((range tree.numCases).mapM fun index =>
        Var.fresh s!"H{index + 1}").value (n + 1) }
  obtain ⟨used, hused, hbuilds⟩ := plan.proof_runs tree [] [] (((range tree.numCases).mapM
    fun index => Var.fresh s!"H{index + 1}").next (n + 1))
  rw [nil_append] at hused
  subst hused
  exact ⟨plan, rfl, rfl, rfl, hvalue, _, _, hnext, _, hbuilds, _, _, rfl, rfl, rfl, rfl, rfl, rfl,
    rfl⟩

namespace Drafts

variable
  (h : Drafts function Γ tree n e m)

include h

lemma hypotheses_length :
    h.plan.hypotheses.length = tree.numCases := by
  rw [h.hypotheses_eq, length_map, length_zipIdx, length_range]

/-- The hypotheses are used up, in their order. -/
lemma used_vars :
    h.used.map (·.var) = h.plan.hypotheses := by
  have hlen : (tree.cases function Γ.length []).length = h.plan.hypotheses.length := by
    rw [tree.cases_length, h.hypotheses_length]
  rw [h.builds.vars (by omega), hlen, drop_zero, take_length]

lemma hypotheses_ids :
    h.plan.hypotheses.map (·.id) = range' (n + 1) tree.numCases := by
  rw [h.hypotheses_eq, map_map]
  change ((range tree.numCases).zipIdx (n + 1)).map Prod.snd = _
  rw [zipIdx_map_snd, length_range]

/-- Motive and hypotheses are different variables, all of them new. -/
lemma params_new :
    (h.plan.motive :: h.plan.hypotheses).Nodup ∧
      ∀ v ∈ h.plan.motive :: h.plan.hypotheses, n ≤ v.id ∧ v.id < h.started := by
  have hids : (h.plan.motive :: h.plan.hypotheses).map (·.id) =
      range' n (tree.numCases + 1) := by
    rw [map_cons, h.hypotheses_ids, h.motive_id]
    rfl
  refine ⟨.of_map (·.id) (hids ▸ nodup_range'), fun v hv => ?_⟩
  have hmem := mem_map_of_mem (f := (·.id)) hv
  rw [hids, mem_range'_1] at hmem
  rw [h.started_eq]
  omega

lemma supply : n < h.started ∧ h.started ≤ h.built ∧
    h.built ≤ m := by
  have hnext := (freshenWith_spec .empty Γ h.built).1
  exact ⟨by rw [h.started_eq]; omega, h.builds.le, hnext.trans (le_of_eq h.next_eq.symm)⟩

lemma motiveParams_length :
    h.motiveParams.length = Γ.length := by
  rw [h.motiveParams_eq]
  exact (freshenWith_spec .empty Γ h.built).2.1

lemma motiveParams_splitFree
    (hΓ : Γ.All Term.SplitFree n) : h.motiveParams.All Term.SplitFree m := by
  have hP := Term.splitFree_hereditary
  obtain ⟨h₁, h₂, -⟩ := h.supply
  obtain ⟨-, -, hall⟩ := freshenWith_spec .empty Γ h.built
  have hfresh := hall All.empty (hP.telescope_mono hΓ (by omega))
  intro entry hentry
  have hentry' := hfresh entry (h.motiveParams_eq ▸ hentry)
  exact ⟨h.next_eq ▸ hentry'.1, h.next_eq ▸ hentry'.2⟩

lemma states_splitFree (hnode : node.SplitFree n)
    (hu : h.plan.States h.started h.built node ihs args u) : u.type.SplitFree m := by
  have hP := Term.splitFree_hereditary
  obtain ⟨h₁, h₂, h₃⟩ := h.supply
  obtain ⟨k, hk, hnext, rfl⟩ := hu.rooted
  have hmotive : h.plan.motive.id < m := by
    rw [h.motive_id]
    omega
  rw [hu.type, splitFree_pis]
  refine ⟨fun entry hentry => ?_, ?_⟩
  · rcases mem_append.1 hentry with hmem | hmem
    · exact hP.telescope_mono hnode.context (by omega) entry hmem
    · have hfresh := hu.fresh entry.1 (mem_vars hmem)
      refine ⟨by omega, ?_⟩
      have htype := mem_map_of_mem (f := (·.2)) hmem
      rw [hu.motives] at htype
      obtain ⟨call, hcall, heq⟩ := mem_map.1 htype
      rw [← heq]
      exact hP.apps.2 ⟨hmotive, fun a ha => (hnode.calls call hcall a ha).mono (by omega)⟩
  · refine hP.apps.2 ⟨hmotive, fun a ha => ?_⟩
    have hroot := toRoot_splitFree (n := k)
      (fun s hs a ha => (hnode.scopes s hs a ha).mono (by omega))
      (fun a ha => (hnode.args a ha).mono (by omega))
    exact (hroot a ha).mono (by omega)

/-- The parameters of a principle split nothing, and neither does its type. -/
lemma type_splitFree (hΓ : Γ.All Term.SplitFree n)
    (hnodes : ∀ node ∈ tree.cases function Γ.length [], node.SplitFree n) :
    Telescope.All Term.SplitFree m ((h.plan.motive, Telescope.pis h.motiveParams .univ) ::
      h.used.map fun u => (u.var, u.type)) ∧ e.type.SplitFree m := by
  have hP := Term.splitFree_hereditary
  obtain ⟨h₁, h₂, h₃⟩ := h.supply
  obtain ⟨-, hnew⟩ := h.params_new
  have hΓ' : Γ.All Term.SplitFree m := hP.telescope_mono hΓ (by omega)
  have hmotive : h.plan.motive.id < m := by
    rw [h.motive_id]
    omega
  have hparams : Telescope.All Term.SplitFree m ((h.plan.motive, Telescope.pis h.motiveParams
      .univ) :: h.used.map fun u => (u.var, u.type)) := by
    refine forall_mem_cons.2 ⟨⟨hmotive, splitFree_pis.2
      ⟨h.motiveParams_splitFree hΓ, trivial⟩⟩, fun entry hentry => ?_⟩
    obtain ⟨u, hu, rfl⟩ := mem_map.1 hentry
    obtain ⟨node, hnode, ihs, args, hstates⟩ := mem_of_forall₂ h.builds.states hu
    have hvar : u.var ∈ h.plan.hypotheses := h.used_vars ▸ mem_map_of_mem hu
    have hid := (hnew u.var (mem_cons_of_mem _ hvar)).2
    exact ⟨show u.var.id < m by omega, h.states_splitFree (hnodes node hnode) hstates⟩
  refine ⟨hparams, ?_⟩
  rw [h.type, splitFree_pis, splitFree_pis]
  exact ⟨hparams, hΓ', hP.apps.2 ⟨hmotive, hP.args hΓ'⟩⟩

end Drafts

end Elimination
end Clausal
