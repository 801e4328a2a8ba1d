import Clausal.Proofs.Naming
import Clausal.Proofs.RecursiveCalls
import Clausal.Proofs.Steps

/-!
# What compilation makes of a definition

Along a compilation nothing acquires a case split but the bodies of functions.
`Grown` says how a splitting tree came from its problem, without the workspaces
that the run went through, and `CompiledFunction.Made` how a function came from
its tree.
-/

namespace Clausal

open Compile Elimination List Option Surface Telescope
open Eval (Returns)

variable {p : Problem} {sig : Signature} {Γ : Telescope}

/-! ### Trees without case splits -/

structure LeafSite.SplitFree (n : Nat) (site : LeafSite) : Prop where
  context : site.context.All Term.SplitFree n
  args : ∀ a ∈ site.args, a.SplitFree n
  goal : site.goal.SplitFree n

mutual

/-- The terms of a tree have no case splits, and are behind the supply. -/
def SplitTree.SplitFree (n : Nat) : SplitTree → Prop
  | .split Γ v branches => Γ.All Term.SplitFree n ∧ v.id < n ∧ branches.SplitFree n
  | .leaf site body => site.SplitFree n ∧ body.SplitFree n
  | .inspect site node tree => site.SplitFree n ∧ node.call.SplitFree n ∧ tree.SplitFree n
  | .absurd Γ v args goal => (LeafSite.mk 0 Γ args goal).SplitFree n ∧ v.id < n

def SplitBranches.SplitFree (n : Nat) : SplitBranches → Prop
  | .nil => True
  | .cons _ fields tree rest =>
    (∀ v ∈ fields, v.id < n) ∧ tree.SplitFree n ∧ rest.SplitFree n

end

lemma LeafSite.SplitFree.mono {site : LeafSite} (h : site.SplitFree n) (hnm : n ≤ m) :
    site.SplitFree m where
  context := Term.splitFree_hereditary.telescope_mono h.context hnm
  args a ha := (h.args a ha).mono hnm
  goal := h.goal.mono hnm

mutual

lemma SplitTree.SplitFree.mono {n m : Nat} (hnm : n ≤ m) :
    {tree : SplitTree} → tree.SplitFree n → tree.SplitFree m
  | .split _ _ _, h => ⟨Term.splitFree_hereditary.telescope_mono h.1 hnm,
      h.2.1.trans_le hnm, h.2.2.mono hnm⟩
  | .leaf _ _, h => ⟨h.1.mono hnm, h.2.mono hnm⟩
  | .inspect _ _ _, h => ⟨h.1.mono hnm, h.2.1.mono hnm, h.2.2.mono hnm⟩
  | .absurd _ _ _ _, h => ⟨h.1.mono hnm, h.2.trans_le hnm⟩

lemma SplitBranches.SplitFree.mono {n m : Nat} (hnm : n ≤ m) :
    {branches : SplitBranches} → branches.SplitFree n → branches.SplitFree m
  | .nil, _ => trivial
  | .cons _ _ _ _, h =>
    ⟨fun v hv => lt_of_lt_of_le (h.1 v hv) hnm, h.2.1.mono hnm, h.2.2.mono hnm⟩

end

mutual

lemma SplitTree.SplitFree.body {n : Nat} : {tree : SplitTree} → tree.SplitFree n →
    tree.body.CaseTree n
  | .split _ _ _, h => ⟨h.2.1, h.2.2.bodies⟩
  | .leaf _ _, h => h.2.caseTree
  | .inspect _ _ _, h => h.2.1.caseTree
  | .absurd _ _ _ _, h => h.2

lemma SplitBranches.SplitFree.bodies {n : Nat} : {branches : SplitBranches} →
    branches.SplitFree n → branches.bodies.CaseTrees n
  | .nil, _ => trivial
  | .cons _ _ _ _, h => ⟨h.1, h.2.1.body, h.2.2.bodies⟩

end

mutual

lemma SplitTree.SplitFree.leaves : {tree : SplitTree} → tree.SplitFree n →
    ∀ leaf ∈ tree.leaves, leaf.1.SplitFree n ∧ leaf.2.SplitFree n
  | .split _ _ _, h => h.2.2.leaves
  | .leaf site body, h => by
    intro leaf hleaf
    rw [mem_singleton.1 hleaf]
    exact ⟨h.1, h.2⟩
  | .inspect site node _, h => by
    intro leaf hleaf
    rw [mem_singleton.1 hleaf]
    exact ⟨h.1, h.2.1⟩
  | .absurd _ _ _ _, _ => by simp [SplitTree.leaves]

lemma SplitBranches.SplitFree.leaves : {branches : SplitBranches} →
    branches.SplitFree n → ∀ leaf ∈ branches.leaves, leaf.1.SplitFree n ∧ leaf.2.SplitFree n
  | .nil, _ => by simp [SplitBranches.leaves]
  | .cons _ _ _ _, h => fun leaf hleaf => (mem_append.1 hleaf).elim
      (h.2.1.leaves leaf) (h.2.2.leaves leaf)

end

/-! ### Calls of a right-hand side -/

lemma Term.SplitFree.callsWith (function : Name) (arity : Nat) : {t : Term} →
    {args : List Term} → t.SplitFree n → (∀ a ∈ args, a.SplitFree n) →
    ∀ call ∈ t.callsWith function arity args, ∀ a ∈ call, a.SplitFree n
  | .app head arg, args, ht, hargs => by
    intro call hcall
    rcases mem_append.1 hcall with hcall | hcall
    · exact SplitFree.callsWith function arity ht.1 (forall_mem_cons.2 ⟨ht.2, hargs⟩) call hcall
    · exact SplitFree.callsWith function arity ht.2 (by simp) call hcall
  | .global name, args, _, hargs => by
    intro call hcall
    rw [Term.callsWith] at hcall
    split at hcall
    · rw [mem_singleton.1 hcall]
      exact hargs
    · cases hcall
  | .ann t _, _, ht, _ => SplitFree.callsWith (t := t) function arity ht.1 (by simp)
  | .univ, _, _, _ | .var _, _, _, _ | .pi _ _ _, _, _, _ | .lam _ _ _, _, _, _
  | .absurd _, _, _, _ => by simp [Term.callsWith]

mutual

lemma SplitTree.SplitFree.cases {n : Nat} (function : Name) (arity : Nat) : {tree : SplitTree} →
    tree.SplitFree n → (scopes : List Enclosing) →
    (∀ scope ∈ scopes, ∀ a ∈ scope.args, a.SplitFree n) → ∀ node ∈ tree.cases function arity scopes,
    node.SplitFree n
  | .split _ _ _, h, scopes, hscopes => h.2.2.cases function arity scopes hscopes
  | .leaf site body, h, scopes, hscopes => by
    intro node hnode
    rw [mem_singleton.1 hnode]
    exact ⟨h.1.context, h.1.args, fun call hcall =>
      Term.SplitFree.callsWith function arity h.2 (by simp) call
        (mem_of_mem_distinctCalls hcall), hscopes⟩
  | .inspect site _ tree, h, scopes, hscopes =>
    h.2.2.cases function arity (site.enclosing :: scopes)
      (forall_mem_cons.2 ⟨h.1.args, hscopes⟩)
  | .absurd Γ _ args _, h, scopes, hscopes => by
    intro node hnode
    rw [mem_singleton.1 hnode]
    exact ⟨h.1.context, h.1.args, by simp, hscopes⟩

lemma SplitBranches.SplitFree.cases {n : Nat} (function : Name) (arity : Nat) :
    {branches : SplitBranches} → branches.SplitFree n → (scopes : List Enclosing) →
    (∀ scope ∈ scopes, ∀ a ∈ scope.args, a.SplitFree n) →
    ∀ node ∈ branches.cases function arity scopes, node.SplitFree n
  | .nil, _, _, _ => by simp [SplitBranches.cases]
  | .cons _ _ _ _, h, scopes, hscopes => fun node hnode => (mem_append.1 hnode).elim
      (h.2.1.cases function arity scopes hscopes node)
      (h.2.2.cases function arity scopes hscopes node)

end

/-! ### How trees come from problems -/

lemma Signature.SplitFree.admits (h : sig.SplitFree n) :
    ({ sig } : Env).Admits Term.SplitFree n where
  keeps := h.keeps
  ctor c k m hm _ hk := by
    refine (@Signature.SplitFree.type _ _ h c k.type ?_).mono hm
    unfold Env.ctor? Signature.ctor? at hk
    split at hk
    · next ctor hget =>
        cases hk
        rw [Signature.type?, hget]
        rfl
    · cases hk

mutual

/-- A tree that splitting made of a problem.  The variables that were added on
the way lie between the two numbers. -/
inductive Grown : Nat → Problem → SplitTree → Nat → Prop
  | leaf {n m : Nat} {p : Problem} {clause : Nat} {body : Term} : n ≤ m → p.SplitFree m →
      body.SplitFree m → body.Over p.context.reach →
      Grown n p (.leaf ⟨clause, p.context, p.args, p.goal⟩ body) m
  | inspect {n m : Nat} {p : Problem} {clause : Nat} {node : Inspection} {tree : SplitTree} :
      n ≤ m → p.SplitFree m → node.call.SplitFree m → node.call.Over p.context.reach →
      tree.SplitFree m →
      Grown n p (.inspect ⟨clause, p.context, p.args, p.goal⟩ node tree) m
  | absurd {n m : Nat} {p : Problem} {v : Var} : n ≤ m → p.SplitFree m → v ∈ p.context.vars →
      Grown n p (.absurd p.context v p.args p.goal) m
  | split {n k l m : Nat} {sig : Signature} {p : Problem} {v : Var} {rs : List Refinement}
      {branches : SplitBranches} : n ≤ k → k ≤ l → sig.SplitFree k → p.SplitFree k →
      v ∈ p.context.vars → (∀ r ∈ rs, Nonempty (Env.Refined { sig } p.context v k r l)) →
      GrownAll l p rs branches m →
      Grown n p (.split p.context v branches) m

/-- Branches that splitting made of the refinements of a problem. -/
inductive GrownAll : Nat → Problem → List Refinement → SplitBranches → Nat → Prop
  | nil {n m : Nat} (p : Problem) : n ≤ m → GrownAll n p [] .nil m
  | cons {n k l m : Nat} {p q : Problem} {r : Refinement} {rs : List Refinement}
      {tree : SplitTree} {branches : SplitBranches} : p.Refines r n k q → Grown k q tree l →
      GrownAll l p rs branches m →
      GrownAll n p (r :: rs) (.cons r.ctor r.fields tree branches) m

end

lemma Grown.mono_left (h : Grown n p tree m) (hn : n' ≤ n) : Grown n' p tree m := by
  cases h with
  | leaf hnm hp hbody hover => exact .leaf (hn.trans hnm) hp hbody hover
  | inspect hnm hp hcall hover htree => exact .inspect (hn.trans hnm) hp hcall hover htree
  | absurd hnm hp hv => exact .absurd (hn.trans hnm) hp hv
  | split hnk hkl hsig hp hv hrs hall =>
    exact .split (hn.trans hnk) hkl hsig hp hv hrs hall

mutual

lemma Grown.le {n m : Nat} {p : Problem} {tree : SplitTree} : Grown n p tree m → n ≤ m
  | .leaf hnm _ _ _ | .inspect hnm _ _ _ _ | .absurd hnm _ _ => hnm
  | .split hnk hkl _ _ _ _ hall => hnk.trans (hkl.trans hall.le)

lemma GrownAll.le {n m : Nat} {p : Problem} : GrownAll n p rs branches m → n ≤ m
  | .nil _ hnm => hnm
  | .cons href htree hall => href.le.trans (htree.le.trans hall.le)

end

mutual

lemma Grown.splitFree {n m : Nat} {p : Problem} {tree : SplitTree} :
    Grown n p tree m → tree.SplitFree m
  | .leaf _ hp hbody _ => ⟨⟨hp.context, hp.args, hp.goal⟩, hbody⟩
  | .inspect _ hp hcall _ htree => ⟨⟨hp.context, hp.args, hp.goal⟩, hcall, htree⟩
  | .absurd _ hp hv => by
    obtain ⟨e, he, rfl⟩ := mem_map.1 hv
    exact ⟨⟨hp.context, hp.args, hp.goal⟩, (hp.context e he).1⟩
  | .split _ hkl _ hp hv hrs hall => by
    have hcontext := Term.splitFree_hereditary.telescope_mono hp.context (hkl.trans hall.le)
    obtain ⟨e, he, rfl⟩ := mem_map.1 hv
    refine ⟨hcontext, (hcontext e he).1, hall.splitFree fun r hr x hx => ?_⟩
    obtain ⟨href⟩ := hrs r hr
    obtain ⟨-, -, h₃, h₄⟩ := href.supply
    exact lt_of_lt_of_le (href.fields_new.2 x hx).2 (h₃.trans h₄)

lemma GrownAll.splitFree {n m : Nat} {p : Problem}
    : GrownAll n p rs branches m →
    (∀ r ∈ rs, ∀ x ∈ r.fields, x.id < n) → branches.SplitFree m
  | .nil _ _, _ => trivial
  | .cons href htree hall, hfields => by
    obtain ⟨hfirst, hrest⟩ := forall_mem_cons.1 hfields
    have hl := href.le.trans htree.le
    have hm := hl.trans hall.le
    refine ⟨fun v hv => lt_of_lt_of_le (hfirst v hv) hm, htree.splitFree.mono hall.le, ?_⟩
    exact hall.splitFree fun r hr x hx => lt_of_lt_of_le (hrest r hr x hx) hl

end

mutual

lemma Grown.body_over {n m : Nat} {p : Problem} {tree : SplitTree} :
    Grown n p tree m → tree.body.Over p.context.reach
  | .leaf _ _ _ hover | .inspect _ _ _ hover _ => hover
  | .absurd _ _ hv => hv
  | .split _ _ hsig hp hv hrs hall =>
    ⟨trivial, hv, hall.bodies_over fun r hr => by
      obtain ⟨href⟩ := hrs r hr
      exact href.context_sub hsig.admits trivial hp.context⟩

lemma GrownAll.bodies_over {n m : Nat} {p : Problem}
    : GrownAll n p rs branches m →
    (∀ r ∈ rs, ∀ x ∈ r.context.vars, x ∈ r.fields ∨ x ∈ p.context.vars) →
    branches.bodies.Over p.context.reach
  | .nil _ _, _ => trivial
  | .cons (r := r) (q := q) href htree hall, hrs => by
    obtain ⟨hfirst, hrest⟩ := forall_mem_cons.1 hrs
    have hle : q.context.reach.Le (p.context.reach.bind r.fields) := by
      refine ⟨fun x hx => hfirst x ?_, fun _ hc => hc, fun hs => hs⟩
      rwa [← href.context]
    exact ⟨htree.body_over.mono hle, hall.bodies_over hrest⟩

end

/-! ### Functions that were compiled -/

/-- How a function came from its tree, up to a supply. -/
structure CompiledFunction.Made (f : CompiledFunction) (m : Nat) where
  problem : FunctionProblem
  type_eq : f.type = problem.type
  start : Nat
  type : problem.type.SplitFree start
  grownSupply : Nat
  grown : Grown start problem.problem f.tree grownSupply
  term_eq : f.term = Telescope.lams problem.params f.tree.body
  /-- The arguments are those of a literal that was checked. -/
  params_closed : problem.params.Within .closed
  equations_eq : f.equations = Equation.ofTree f.name f.tree
  draftingSupply : Nat
  grown_le : grownSupply ≤ draftingSupply
  draftedSupply : Nat
  drafts : Drafts f.name problem.params f.tree draftingSupply f.elimination
    draftedSupply
  sig : Signature
  checks : Eval.Yields (({ sig } : Env).check [] f.elimination.term f.elimination.type)
    draftedSupply
    () m

namespace CompiledFunction.Made

variable {f : CompiledFunction} {m : Nat}

variable (h : f.Made m)

include h

lemma supply : h.start ≤ h.draftingSupply ∧ h.draftingSupply ≤ h.draftedSupply ∧
    h.draftedSupply ≤ m := by
  obtain ⟨h₁, h₂, h₃⟩ := h.drafts.supply
  exact ⟨h.grown.le.trans h.grown_le, by omega, Env.check_forward _ _ _ h.checks⟩

lemma type_splitFree : f.type.SplitFree m := by
  obtain ⟨h₁, h₂, h₃⟩ := h.supply
  rw [h.type_eq]
  exact h.type.mono (by omega)

lemma tree_splitFree : f.tree.SplitFree h.draftingSupply :=
  h.grown.splitFree.mono h.grown_le

lemma params_splitFree : h.problem.params.All Term.SplitFree h.draftingSupply :=
  Term.splitFree_hereditary.telescope_mono
    (splitFree_ofTypeUpTo h.problem.arity h.type).1 h.supply.1

lemma term_caseTree : f.term.CaseTree m := by
  obtain ⟨h₁, h₂, h₃⟩ := h.supply
  rw [h.term_eq]
  exact (caseTree_lams h.params_splitFree h.tree_splitFree.body).mono (by omega)

lemma term_closed : f.term.Over .closed := by
  have hbound : (Telescope.reach h.problem.params).Le (Reach.closed.bind h.problem.params.vars) :=
    ⟨fun _ hx => .inl hx, fun _ hc => hc, fun hs => hs⟩
  rw [h.term_eq]
  exact over_lams.2 ⟨h.params_closed, h.grown.body_over.mono hbound⟩

lemma cases_splitFree : ∀ node ∈ f.tree.cases f.name h.problem.params.length [],
    node.SplitFree h.draftingSupply := h.tree_splitFree.cases _ _ [] (by simp)

lemma elimination_splitFree : f.elimination.type.SplitFree m :=
  (h.drafts.type_splitFree h.params_splitFree h.cases_splitFree).2.mono h.supply.2.2

lemma equations_splitFree : ∀ e ∈ f.equations, e.type.SplitFree m := by
  obtain ⟨h₁, h₂, h₃⟩ := h.supply
  have hP := Term.splitFree_hereditary
  intro e he
  rw [h.equations_eq] at he
  obtain ⟨⟨⟨site, rhs⟩, index⟩, hentry, rfl⟩ := mem_map.1 he
  obtain ⟨-, -, hmem⟩ := mem_zipIdx hentry
  obtain ⟨hsite, hrhs⟩ := h.tree_splitFree.leaves (site, rhs) (hmem ▸ getElem_mem _)
  refine (splitFree_pis.2 ⟨hsite.context, ?_⟩).mono (by omega)
  refine hP.apps.2 ⟨trivial, fun a ha => ?_⟩
  simp only [mem_cons, not_mem_nil, or_false] at ha
  rcases ha with rfl | rfl | rfl
  · exact hsite.goal
  · exact hP.apps.2 ⟨trivial, hsite.args⟩
  · exact hrhs

end CompiledFunction.Made

/-- A function whose tree has grown is made by generating what stands beside it. -/
lemma Compile.Finishes.made {p : FunctionProblem}
    (h : Finishes job p tree w k f w' m) (htype : p.type.SplitFree n)
    (htree : Grown n p.problem tree k) : Nonempty (f.Made m) := by
  obtain rfl := h.tree_eq
  have hk := le_trans (Env.check_forward _ _ _ h.body)
    (Equation.generate_forward _ _ _ h.equations)
  obtain ⟨helimination, -, hcheck⟩ := derive_yields h.elimination
  obtain ⟨hdrafts⟩ := draft_drafts p.name p.params f.tree h.equationsChecked
  rw [← helimination, ← h.name_eq] at hdrafts
  rw [← h.name_eq] at hcheck
  have hchecked := h.body
  rw [h.term_eq] at hchecked
  have hclosed := (Env.check_lams_within (splitFree_ofTypeUpTo p.arity htype).1
    hchecked).mono reach_nil_le
  refine ⟨p, h.type_eq, n, htype, k, htree, h.term_eq, hclosed, ?_, _, hk, _, hdrafts, _, hcheck⟩
  rw [Equation.generate_yields h.equations, h.name_eq]

/-- The functions that a compilation adds, at most at some supply. -/
structure Workspace.Extends (root : Name) (n m : Nat) (w w' : Workspace) : Prop where
  le : n ≤ m
  grows : w.sig.Grows root m w'.sig
  auxiliaries : ∃ new, w'.auxiliaries = w.auxiliaries ++ new ∧
    ∀ f ∈ new, Name.Under root f.name ∧ ∃ k ≤ m, Nonempty (f.Made k)

namespace Workspace.Extends

variable {n k m : Nat} {w w₁ : Workspace}

lemma of_grows (hnm : n ≤ m) (hsig : w.sig.Grows root m w'.sig)
    (haux : w'.auxiliaries = w.auxiliaries) : w.Extends root n m w' :=
  ⟨hnm, hsig, [], by rw [haux, append_nil], by simp⟩

lemma of_eq (hnm : n ≤ m) (hsig : w'.sig = w.sig) (haux : w'.auxiliaries = w.auxiliaries) :
    w.Extends root n m w' := .of_grows hnm (hsig ▸ .refl root m w.sig) haux

lemma trans (h : w.Extends root n k w₁) (h' : w₁.Extends root k m w') :
    w.Extends root n m w' := by
  obtain ⟨new, haux, hnew⟩ := h.auxiliaries
  obtain ⟨newer, haux', hnewer⟩ := h'.auxiliaries
  refine ⟨h.le.trans h'.le, h.grows.trans h'.grows h'.le, new ++ newer, ?_, fun f hf => ?_⟩
  · rw [haux', haux, append_assoc]
  · rcases mem_append.1 hf with hf | hf
    · obtain ⟨hname, j, hj, hmade⟩ := hnew f hf
      exact ⟨hname, j, hj.trans h'.le, hmade⟩
    · exact hnewer f hf

variable (h : w.Extends root n m w')

include h

lemma splitFree (hsig : w.sig.SplitFree n) : w'.sig.SplitFree m :=
  h.grows.splitFree hsig h.le

lemma closed (hsig : w.sig.Closed) : w'.sig.Closed :=
  h.grows.closed hsig

lemma add {f : CompiledFunction} (hname : Name.Under root f.name)
    (hf : Nonempty (f.Made k)) (hk : k ≤ m) :
    w.Extends root n m { w' with auxiliaries := w'.auxiliaries ++ [f] } := by
  obtain ⟨new, haux, hnew⟩ := h.auxiliaries
  refine ⟨h.le, h.grows, new ++ [f], ?_, fun g hg => ?_⟩
  · rw [haux, append_assoc]
  · rcases mem_append.1 hg with hg | hg
    · exact hnew g hg
    · rw [mem_singleton.1 hg]
      exact ⟨hname, k, hk, hf⟩

end Workspace.Extends

/-! ### Runs -/

lemma Env.refinements_mem {env : Env} (h : Eval.Yields (env.refinements Γ v pattern) n rs m) :
    v ∈ Γ.vars := by
  obtain ⟨hrs⟩ := Env.refinements_yields h
  obtain ⟨type, name, htype, -⟩ := Env.splitType_yields hrs.splitType
  exact mem_vars (mem_of_type? htype)

lemma Env.Refined.problem_splitFree (h : Env.Refined { sig } p.context v k r l)
    (hsig : sig.SplitFree k) (hp : p.SplitFree k) (hln : l ≤ n) (hpq : p.Refines r n m q) :
    q.SplitFree m := by
  have hP := Term.splitFree_hereditary
  obtain ⟨h₁, h₂, h₃, h₄⟩ := h.supply
  refine hpq.splitFree ?_ ?_ (hp.mono (by omega))
  · exact hP.telescope_mono (h.context_all hsig.admits trivial hp.context) hln
  · exact (h.subst_all hsig.admits trivial hp.context).mono hP hln

namespace Compile

/-- Settling a row adds functions and makes a tree of the problem. -/
def Grows (root : Name) (settle : ReachedRow → Compile SplitTree) : Prop :=
  ∀ ⦃r : ReachedRow⦄ ⦃w : Workspace⦄ ⦃n : Nat⦄ ⦃tree : SplitTree⦄ ⦃w' : Workspace⦄ ⦃m : Nat⦄,
    w.sig.SplitFree n → r.problem.SplitFree n → r.locals.SplitFree n →
    Yields (settle r) w n tree w' m → w.Extends root n m w' ∧ Grown n r.problem tree m

mutual

lemma Splits.grown (hsettle : Grows root settle) {n m : Nat} {p : Problem}
    {tree : SplitTree} (hsig : w.sig.SplitFree n) (hp : p.SplitFree n) :
    Splits target settle w n p rows tree reached w' m → w.Extends root n m w' ∧ Grown n p tree m
  | .settled (k := k) hdecide hyields => by
    have hk : n ≤ k := Env.decideRows_forward _ _ hdecide
    obtain ⟨hextends, hgrown⟩ := hsettle (hsig.mono hk) (hp.mono hk)
      (Env.decideRows_splitFree hsig.keeps hp hdecide) hyields
    exact ⟨(Workspace.Extends.of_eq hk rfl rfl).trans hextends, hgrown.mono_left hk⟩
  | .exhausted hdecide hfind => by
    have hm := le_trans (Env.decideRows_forward _ _ hdecide) (Env.findEmpty_forward _ hfind)
    exact ⟨.of_eq hm rfl rfl, .absurd hm (hp.mono hm) (Env.findEmpty_mem hfind)⟩
  | .empty hdecide hrefine => by
    have hm := le_trans (Env.decideRows_forward _ _ hdecide) (Env.refinements_forward _ hrefine)
    exact ⟨.of_eq hm rfl rfl, .absurd hm (hp.mono hm) (Env.refinements_mem hrefine)⟩
  | .split (k := k) (l := l) hdecide hrefine hall => by
    have hk : n ≤ k := Env.decideRows_forward _ _ hdecide
    have hl : k ≤ l := Env.refinements_forward _ hrefine
    obtain ⟨hrs⟩ := Env.refinements_yields hrefine
    obtain ⟨hextends, hgrown⟩ := SplitsAll.grown hsettle (hsig.mono (hk.trans hl))
      (hsig.mono hk) (hp.mono hk) hrs.refined (le_refl l) hall
    refine ⟨(Workspace.Extends.of_eq (hk.trans hl) rfl rfl).trans hextends, ?_⟩
    exact .split hk hl (hsig.mono hk) (hp.mono hk) (Env.refinements_mem hrefine) hrs.refined hgrown

lemma SplitsAll.grown (hsettle : Grows root settle) {n m k : Nat} {p : Problem}
    (hsig : w.sig.SplitFree n) {sig : Signature} {v : Var}
    (hsig' : sig.SplitFree k) (hp : p.SplitFree k)
    (hrs : ∀ r ∈ rs, Nonempty (Env.Refined { sig } p.context v k r l)) (hln : l ≤ n) :
    SplitsAll target settle w n p rows rs branches reached w' m →
      w.Extends root n m w' ∧ GrownAll n p rs branches m
  | .nil _ _ _ _ => ⟨.of_eq (le_refl n) rfl rfl, .nil p (le_refl n)⟩
  | .cons (r := r) _ hsplits hall => by
    obtain ⟨⟨hr⟩, hrs⟩ := forall_mem_cons.1 hrs
    have hpq := p.refine_refines r n
    have hk := hpq.le
    obtain ⟨hextends, hgrown⟩ := Splits.grown hsettle (hsig.mono hk)
      (hr.problem_splitFree hsig' hp hln hpq) hsplits
    have hfirst := (Workspace.Extends.of_eq hk rfl rfl).trans hextends
    obtain ⟨hextends', hgrown'⟩ := SplitsAll.grown hsettle (hfirst.splitFree hsig) hsig' hp hrs
      (hln.trans hfirst.le) hall
    exact ⟨hfirst.trans hextends', .cons hpq hgrown hgrown'⟩

end

/-! ### Functions, leaves and auxiliaries -/

lemma copyName_under (job : Job) (w : Workspace) (name : Name) :
    Name.Under job.root (copyName job w name) := by
  have hroot : Name.Under job.root job.root := .inl rfl
  unfold copyName
  split
  · exact hroot.qualify name
  · exact (hroot.qualify name).qualify _

variable {n m : Nat}

/-- Declared auxiliaries are functions of their own, over the variables of the leaf. -/
lemma declareAuxiliaries_forms (hsig : w.sig.SplitFree n) (hΓ : Γ.All Term.SplitFree n)
    (hlocals : locals.SplitFree n) (h : Yields (declareAuxiliaries job Γ ds locals) w n result w' m)
      :
    w.Extends job.root n m w' ∧ result.2.SplitFree m ∧
      ∀ a ∈ result.1, Name.Under job.root a.name ∧ a.type.SplitFree m := by
  have hP := Term.splitFree_hereditary
  induction ds generalizing locals result w n with
  | nil =>
    obtain ⟨rfl, rfl, rfl⟩ := declareAuxiliaries_nil h
    exact ⟨.of_eq (le_refl n) rfl rfl, hlocals, by simp⟩
  | cons d ds ih =>
    obtain ⟨a, rest, w₁, k, ⟨hd⟩, hresult, hrest⟩ := declareAuxiliaries_cons h
    obtain ⟨hr, htype⟩ := Scope.funType_splitFree hlocals hd.resolves
    have hk := hr.trans (Env.check_forward _ _ _ hd.checks)
    have hname : Name.Under job.root a.name := by
      rw [hd.auxiliary]
      exact copyName_under job w _
    have hlifted : a.type.SplitFree k := by
      rw [hd.auxiliary]
      exact splitFree_pis.2 ⟨hP.telescope_mono hΓ hk,
        htype.mono (Env.check_forward _ _ _ hd.checks)⟩
    have hfirst : w.Extends job.root n k w₁ := by
      rw [hd.workspace]
      exact .of_grows hk (.addFunction hname ⟨hlifted, by simp⟩ (by simp [Function.Closed])) rfl
    have hcall : ((Term.global a.name).apps (Telescope.args Γ)).SplitFree k :=
      hP.apps.2 ⟨trivial, hP.args (hP.telescope_mono hΓ hk)⟩
    obtain ⟨hextends, hlocals', hdeclared⟩ :=
      ih (hfirst.splitFree hsig) (hP.telescope_mono hΓ hk) ((hlocals.mono hk).cons _ hcall) hrest
    refine ⟨hfirst.trans hextends, hlocals', ?_⟩
    rw [hresult]
    exact forall_mem_cons.2 ⟨⟨hname, hlifted.mono hextends.le⟩, hdeclared⟩

lemma Claims.unchanged {p : FunctionProblem} (h : Claims job p w w') :
    w'.sig = w.sig ∧ w'.auxiliaries = w.auxiliaries := by
  rcases h with ⟨-, rfl⟩ | ⟨-, base, -, rfl⟩
  · exact ⟨rfl, rfl⟩
  · exact ⟨rfl, rfl⟩

lemma Claims.opening_extends {job : Job} {p : FunctionProblem} {w : Workspace} {n : Nat}
    (h : Claims job p w claimed) (htype : p.type.SplitFree n) (hname : Name.Under job.root p.name) :
    w.Extends job.root n n (opening p claimed) := by
  obtain ⟨hsig, haux⟩ := h.unchanged
  refine .of_grows (by omega) ?_ haux
  rw [opening, Workspace.withFunction, hsig]
  exact .addFunction hname ⟨htype, by simp⟩ (by simp [Function.Closed])

lemma Finishes.extends {p : FunctionProblem}
    (h : Finishes job p tree w n f w' m) (hname : Name.Under job.root p.name) (hf : f.Made m) :
    w.Extends job.root n m w' := by
  have hm := le_trans (le_trans (Env.check_forward _ _ _ h.body)
    (Equation.generate_forward _ _ _ h.equations))
    (derive_forward _ _ _ _ h.elimination)
  obtain ⟨-, hsig, -⟩ := derive_yields h.elimination
  have helim : Name.Under job.root f.elimination.name := by
    rw [hf.drafts.name, h.name_eq]
    exact hname.qualify _
  have htype : p.type.SplitFree m := h.type_eq ▸ hf.type_splitFree
  have haux : w'.auxiliaries = w.auxiliaries := by rw [h.workspace]
  refine .of_grows hm ?_ haux
  rw [h.workspace, hsig]
  have hbody (e : Option Name) : Function.SplitFree m
      { name := p.name, type := p.type, body := some f.term, transparent := job.transparent,
        eliminator := e } :=
    ⟨htype, fun _ _ hb => some.inj hb ▸ hf.term_caseTree⟩
  have hprinciple (t : Option Term) : Function.SplitFree m
      { name := f.elimination.name, type := f.elimination.type, body := t } :=
    ⟨hf.elimination_splitFree, by simp⟩
  have hbodyClosed (e : Option Name) : Function.Closed
      { name := p.name, type := p.type, body := some f.term, transparent := job.transparent,
        eliminator := e } := fun _ _ hb => some.inj hb ▸ hf.term_closed
  have hprincipleClosed (t : Option Term) : Function.Closed
      { name := f.elimination.name, type := f.elimination.type, body := t } := by
    simp [Function.Closed]
  exact (((Signature.Grows.addFunction hname (hbody none) (hbodyClosed none)).add helim
    (hprinciple none) (hprincipleClosed none)).add helim (hprinciple _) (hprincipleClosed _)).add
    hname (hbody _) (hbodyClosed _)

/-- The auxiliary of an inspection, and the call that stands for the clause. -/
lemma Poses.splitFree {span : Span}
    (i : Poses job p locals span scrut equation rows w n node)
    (hsig : w.sig.SplitFree n) (hp : p.SplitFree n) (hlocals : locals.SplitFree n) :
    n ≤ i.checkedSupply ∧ i.problem.type.SplitFree i.checkedSupply ∧
      i.problem.locals.SplitFree i.checkedSupply ∧ node.call.SplitFree i.checkedSupply := by
  have hP := Term.splitFree_hereditary
  obtain ⟨hr, hscrut⟩ := Scope.term_splitFree hlocals scrut i.resolves
  have hsig' := hsig.mono hr
  have htype := Env.synth_splitFree hsig'.keeps hsig'.type (hP.telescope_mono hp.context hr) hscrut
    i.types
  have ht := Env.synth_forward _ _ i.types
  have hc := Env.check_forward _ _ _ i.checks
  have hn : n ≤ i.checkedSupply := by omega
  have hcontext := hP.telescope_mono hp.context hn
  have hscrut := hscrut.mono (show i.resolvedSupply ≤ i.checkedSupply by omega)
  have htype := htype.mono (show i.typedSupply ≤ i.checkedSupply by omega)
  have hvar : (Term.var node.scrutVar).SplitFree i.checkedSupply := by
    rw [i.scrutVar_eq]
    exact lt_of_lt_of_le (Nat.lt_add_of_pos_right (by omega)) hc
  have hequation : (Term.var node.equationVar).SplitFree i.checkedSupply := by
    rw [i.equationVar_eq]
    exact lt_of_lt_of_le (Nat.lt_succ_self _) hc
  have hparams : i.params.All Term.SplitFree i.checkedSupply := by
    rw [i.params_eq]
    intro e he
    simp only [mem_append, mem_cons, not_mem_nil, or_false] at he
    rcases he with he | rfl | rfl
    · exact hcontext e he
    · exact ⟨hvar, htype⟩
    · exact ⟨hequation, ⟨⟨trivial, htype⟩, hscrut⟩, hvar⟩
  refine ⟨hn, ?_, ?_, ?_⟩
  · rw [i.problem_eq]
    rw [i.type_eq]
    exact splitFree_pis.2 ⟨hparams, .abstract _ hvar (hp.goal.mono hn)⟩
  · rw [i.problem_eq]
    intro e he
    rcases mem_append.1 he with he | he
    · obtain ⟨ident, -, rfl⟩ := map_eq_some_iff.1 (mem_toList.1 he)
      exact hequation
    · exact hlocals.mono hn e he
  · rw [i.call_eq]
    refine hP.apps.2 ⟨trivial, fun a ha => ?_⟩
    simp only [mem_append, mem_cons, not_mem_nil, or_false] at ha
    rcases ha with ha | rfl | rfl
    · exact hP.args hcontext a ha
    · exact hscrut
    · exact ⟨⟨trivial, htype⟩, hscrut⟩

mutual

/-- What compiling adds is well formed; the five functions by one induction on the fuel. -/
lemma function_forms {job : Job} : (fuel : Nat) → ∀ {p f w w' n m}, w.sig.SplitFree n →
    p.type.SplitFree n → p.locals.SplitFree n → Name.Under job.root p.name →
    Yields (function job fuel p) w n f w' m → w.Extends job.root n m w' ∧ f.name = p.name ∧
    Nonempty (f.Made m)
  | 0, _, _, _, _, _, _, _, _, _, _, h => (yields_outOfFuel h).elim
  | fuel + 1, p, f, w, w', n, m, hsig, htype, hlocals, hname, h => by
    have hP := Term.splitFree_hereditary
    obtain ⟨run⟩ := function_run h
    obtain ⟨hparams, hgoal⟩ := splitFree_ofTypeUpTo p.arity htype
    have hdeclared := run.claims.opening_extends htype hname
    obtain ⟨hsplit, hgrown⟩ := run.splits.grown
      (fun _ _ _ _ _ _ hsig hp hlocals h => leaf_forms fuel hsig hp hlocals h)
      (hdeclared.splitFree hsig) ⟨hparams, hgoal, hP.args hparams, hlocals⟩
    obtain ⟨hmade⟩ := run.finishes.made htype hgrown
    refine ⟨?_, run.finishes.name_eq, ⟨hmade⟩⟩
    have hreported : run.settled.Extends job.root run.splitSupply run.splitSupply run.reported := by
      obtain ⟨-, warnings, heq⟩ := reportRedundant_yields run.reports
      exact .of_eq le_rfl (by rw [heq]) (by rw [heq])
    exact ((hdeclared.trans hsplit).trans hreported).trans (run.finishes.extends hname hmade)

lemma leaf_forms {job : Job} : (fuel : Nat) → ∀ {r tree w w' n m}, w.sig.SplitFree n →
    r.problem.SplitFree n → r.locals.SplitFree n → Yields (leaf job fuel r) w n tree w' m →
    w.Extends job.root n m w' ∧ Grown n r.problem tree m
  | 0, _, _, _, _, _, _, _, _, _, h => (yields_outOfFuel h).elim
  | fuel + 1, r, tree, w, w', n, m, hsig, hp, hlocals, h => by
    have hP := Term.splitFree_hereditary
    cases leaf_settles h with
    | absurd _ hfind =>
      have hm := Env.findEmpty_forward _ hfind
      exact ⟨.of_eq hm rfl rfl, .absurd hm (hp.mono hm) (Env.findEmpty_mem hfind)⟩
    | @term body k l j _ locals _ t _ hforced haux hterm hcheck =>
      have hk := Forward.closed.checkForced_has _ _ _ _ hforced
      obtain ⟨hextends, hlocals'⟩ := auxiliaries_forms fuel (hsig.mono hk)
        (hP.telescope_mono hp.context hk) (hlocals.mono hk) haux
      obtain ⟨hj, ht⟩ := Scope.term_splitFree hlocals' body hterm
      have hm := Env.check_forward _ _ _ hcheck
      have hl := hk.trans hextends.le
      have hall := hl.trans (hj.trans hm)
      refine ⟨?_, .leaf hall (hp.mono hall) (ht.mono hm) (Env.check_over ht hcheck)⟩
      exact ((Workspace.Extends.of_eq hk rfl rfl).trans hextends).trans
        (.of_eq (hj.trans hm) rfl rfl)
    | @inspect scrut equation rows k l _ locals w₁ _ node tree _ hforced haux hinspect =>
      have hk := Forward.closed.checkForced_has _ _ _ _ hforced
      obtain ⟨hextends, hlocals'⟩ := auxiliaries_forms fuel (hsig.mono hk)
        (hP.telescope_mono hp.context hk) (hlocals.mono hk) haux
      have hfirst := (Workspace.Extends.of_eq hk rfl rfl).trans hextends
      obtain ⟨hinspection, hcall, hover, htree⟩ := inspection_forms fuel
        (hfirst.splitFree hsig) (hp.mono hfirst.le) hlocals' hinspect
      have hwhole := hfirst.trans hinspection
      exact ⟨hwhole, .inspect hwhole.le (hp.mono hwhole.le) hcall hover htree⟩

lemma auxiliaries_forms {job : Job} : (fuel : Nat) → ∀ {Γ ds locals locals' w w' n m},
    w.sig.SplitFree n → Γ.All Term.SplitFree n → locals.SplitFree n →
    Yields (auxiliaries job fuel Γ ds locals) w n locals' w' m → w.Extends job.root n m w' ∧
    locals'.SplitFree m
  | 0, _, _, _, _, _, _, _, _, _, _, _, h => (yields_outOfFuel h).elim
  | fuel + 1, Γ, ds, locals, locals', w, w', n, m, hsig, hΓ, hlocals, h => by
    obtain ⟨declared, w₁, k, hdeclare, hcompile⟩ := auxiliaries_yields h
    obtain ⟨hextends, hlocals', hdeclared⟩ := declareAuxiliaries_forms hsig hΓ hlocals hdeclare
    have hcompiled := compileAuxiliaries_forms fuel (hextends.splitFree hsig) hlocals' hdeclared
      hcompile
    exact ⟨hextends.trans hcompiled, hlocals'.mono hcompiled.le⟩

lemma compileAuxiliaries_forms {job : Job} : (fuel : Nat) → ∀ {Γ locals declared u w w' n m},
    w.sig.SplitFree n → locals.SplitFree n →
    (∀ a ∈ declared, Name.Under job.root a.name ∧ a.type.SplitFree n) →
    Yields (compileAuxiliaries job fuel Γ locals declared) w n u w' m → w.Extends job.root n m w'
  | 0, _, _, _, _, _, _, _, _, _, _, _, h => (yields_outOfFuel h).elim
  | _ + 1, _, _, [], _, w, w', n, m, _, _, _, h => by
    obtain ⟨rfl, rfl⟩ := compileAuxiliaries_nil h
    exact .of_eq (le_refl n) rfl rfl
  | fuel + 1, Γ, locals, a :: rest, u, w, w', n, m, hsig, hlocals, hdeclared, h => by
    obtain ⟨rows, f, w₁, k, -, hfunction, hrest⟩ := compileAuxiliaries_cons h
    obtain ⟨⟨hname, htype⟩, hdeclared⟩ := forall_mem_cons.1 hdeclared
    obtain ⟨hextends, hf, hmade⟩ := function_forms fuel (p := a.problem Γ locals rows) hsig htype
      hlocals hname hfunction
    have hadded := hextends.add (hf ▸ hname) hmade (le_refl k)
    refine hadded.trans (compileAuxiliaries_forms fuel (hadded.splitFree hsig)
      (hlocals.mono hadded.le) (fun b hb => ?_) hrest)
    exact ⟨(hdeclared b hb).1, (hdeclared b hb).2.mono hadded.le⟩

lemma inspection_forms {job : Job} : (fuel : Nat) →
    ∀ {p locals span scrut equation rows result w w' n m}, w.sig.SplitFree n → p.SplitFree n →
    locals.SplitFree n →
    Yields (inspection job fuel p locals span scrut equation rows) w n result w' m →
    w.Extends job.root n m w' ∧ result.1.call.SplitFree m ∧ result.1.call.Over p.context.reach ∧
    result.2.SplitFree m
  | 0, _, _, _, _, _, _, _, _, _, _, _, _, _, _, h => (yields_outOfFuel h).elim
  | fuel + 1, p, locals, span, scrut, equation, rows, result, w, w', n, m, hsig, hp, hlocals,
      h => by
    obtain ⟨i⟩ := inspection_yields h
    obtain ⟨hn, htype, hlocals', hcall⟩ := i.splitFree hsig hp hlocals
    have hname : Name.Under job.root i.problem.name := by
      rw [i.problem_eq, i.name_eq]
      exact .inr ⟨_, rfl⟩
    obtain ⟨hextends, hf, ⟨hmade⟩⟩ := function_forms fuel (p := i.problem)
      (w := { w with inspections := w.inspections + 1 }) (hsig.mono hn) htype hlocals' hname
      i.compiles
    have hm := Env.check_forward _ _ _ i.checksCall
    have hcompiled := hextends.le
    refine ⟨?_, hcall.mono (by omega), Env.check_over hcall i.checksCall, ?_⟩
    · rw [i.workspace]
      have hfirst : w.Extends job.root n i.checkedSupply
          { w with inspections := w.inspections + 1 } := .of_eq hn rfl rfl
      have hlast : i.compiled.Extends job.root i.compiledSupply m i.compiled := .of_eq hm rfl rfl
      exact ((hfirst.trans hextends).trans hlast).add (hf ▸ hname) ⟨hmade⟩ hm
    · obtain ⟨-, h₁, h₂⟩ := hmade.supply
      rw [i.tree_eq]
      exact hmade.tree_splitFree.mono (by omega)

end

end Compile

/-! ### Definitions -/

lemma compile_forward (base : RuleBase) (sig : Signature) (decl : Declaration)
    (options : CompileOptions) : Eval.Forward (compile base sig decl options) := by
  unfold compile
  split
  · exact .pure _
  · refine .bind (fun n r m h => ?_) fun _ => .pure _
    exact Forward.closed.definition_has decl options h

/-- Every function of a compiled definition was made from a tree. -/
lemma compile_made
    (hsig : sig.SplitFree n) (htype : decl.type.SplitFree n)
    (h : Returns (compile base sig decl options) n (.ok d, base') m) :
    ∀ f ∈ d.functions, ∃ k ≤ m, Nonempty (f.Made k) := by
  obtain ⟨claimed, w, -, hrun, -⟩ := compile_yields h
  obtain ⟨names, rows, -, -, hfunction, haux, -⟩ := definition_yields hrun
  obtain ⟨hextends, -, hmade⟩ := function_forms _ hsig htype
    (by simp [Locals.SplitFree]) (.inl rfl) hfunction
  obtain ⟨new, hnew, hauxiliaries⟩ := hextends.auxiliaries
  rw [hnew, nil_append] at haux
  refine forall_mem_cons.2 ⟨⟨m, le_refl m, hmade⟩, fun f hf => ?_⟩
  exact (hauxiliaries f (haux ▸ hf)).2

end Clausal
