import Clausal.Proofs.Hereditary

/-!
# Terms without case splits

Splits enter a signature with the bodies of functions, and reduction does not let
them out.  All variables are bounded here, also those of binders, since the binders
of a function's type become the context of its clauses.
-/

namespace Clausal

open List Subst

variable {body : Term} {Γ : Telescope}

/-- No case splits, and all variables behind the supply. -/
def Term.SplitFree (n : Nat) : Term → Prop
  | .univ => True
  | .var v => v.id < n
  | .global _ => True
  | .pi v dom cod => v.id < n ∧ dom.SplitFree n ∧ cod.SplitFree n
  | .lam v dom body => v.id < n ∧ dom.SplitFree n ∧ body.SplitFree n
  | .app head arg => head.SplitFree n ∧ arg.SplitFree n
  | .ann term type => term.SplitFree n ∧ type.SplitFree n
  | .case _ _ => False
  | .absurd scrut => scrut.SplitFree n

mutual

/-- Literals around case splits of terms that have none. -/
def Term.CaseTree (n : Nat) : Term → Prop
  | .lam v dom body => v.id < n ∧ dom.SplitFree n ∧ body.CaseTree n
  | .case scrut branches => scrut.SplitFree n ∧ branches.CaseTrees n
  | t => t.SplitFree n

def Branches.CaseTrees (n : Nat) : Branches → Prop
  | .nil => True
  | .cons _ fields body rest =>
    (∀ v ∈ fields, v.id < n) ∧ body.CaseTree n ∧ rest.CaseTrees n

end

lemma Term.SplitFree.mono (hnm : n ≤ m) : {t : Term} → t.SplitFree n → t.SplitFree m
  | .univ, _ => trivial
  | .var _, ht => ht.trans_le hnm
  | .global _, _ => trivial
  | .pi _ _ _, ht
  | .lam _ _ _, ht => ⟨ht.1.trans_le hnm, ht.2.1.mono hnm, ht.2.2.mono hnm⟩
  | .app _ _, ht | .ann _ _, ht => ⟨ht.1.mono hnm, ht.2.mono hnm⟩
  | .absurd scrut, ht => Term.SplitFree.mono (t := scrut) hnm ht

lemma Term.SplitFree.caseTree : {t : Term} → t.SplitFree n → t.CaseTree n
  | .lam _ _ _, ht => ⟨ht.1, ht.2.1, ht.2.2.caseTree⟩
  | .univ, ht | .var _, ht | .global _, ht | .pi _ _ _, ht | .app _ _, ht | .ann _ _, ht
  | .absurd _, ht => ht

lemma Term.SplitFree.below : {t : Term} → t.SplitFree n → t.Over (.below n)
  | .univ, _ => trivial
  | .var _, ht => ht
  | .global _, _ => trivial
  | .pi v _ _, ht | .lam v _ _, ht => ⟨ht.2.1.below, ht.2.2.below.mono (Reach.le_bind _ [v])⟩
  | .app _ _, ht | .ann _ _, ht => ⟨ht.1.below, ht.2.below⟩
  | .absurd scrut, ht => Term.SplitFree.below (t := scrut) ht

mutual

lemma Term.CaseTree.mono (hnm : n ≤ m) : {t : Term} → t.CaseTree n → t.CaseTree m
  | .lam _ _ _, ht => ⟨ht.1.trans_le hnm, ht.2.1.mono hnm, ht.2.2.mono hnm⟩
  | .case _ _, ht => ⟨ht.1.mono hnm, ht.2.mono hnm⟩
  | .univ, ht | .var _, ht | .global _, ht | .pi _ _ _, ht | .app _ _, ht | .ann _ _, ht
  | .absurd _, ht => Term.SplitFree.mono hnm ht

lemma Branches.CaseTrees.mono (hnm : n ≤ m) : {bs : Branches} → bs.CaseTrees n → bs.CaseTrees m
  | .nil, _ => trivial
  | .cons _ _ _ _, hb =>
    ⟨fun v hv => lt_of_lt_of_le (hb.1 v hv) hnm, hb.2.1.mono hnm, hb.2.2.mono hnm⟩

end

/-! ### Substitution -/

/-- The values of an assignment have no case splits. -/
def Assignment.SplitFree (n : Nat) (σ : Assignment) : Prop :=
  ∀ ⦃x : Var⦄ ⦃t : Term⦄, σ.get? x = some t → t.SplitFree n

namespace Assignment.SplitFree

variable {n : Nat} {σ : Assignment}

variable (h : σ.SplitFree n)

include h

lemma mono (hnm : n ≤ m) : σ.SplitFree m :=
  fun _ _ hget => (h hget).mono hnm

lemma bind (hws : ∀ w ∈ ws, w.id < n) : (σ.bind vs ws).SplitFree n := by
  intro x t hget
  rw [Assignment.bind, Assignment.get?_append, Option.or_eq_some_iff] at hget
  rcases hget with hget | ⟨-, hget⟩
  · obtain ⟨⟨y, u⟩, hfind, rfl⟩ := Option.map_eq_some_iff.1 hget
    have hmem := (of_mem_zip (mem_reverse.1 (mem_of_find?_eq_some hfind))).2
    obtain ⟨w, hw, rfl⟩ := mem_map.1 hmem
    exact hws w hw
  · exact h hget

lemma bindNext (v : Var) (hnm : n ≤ m) :
    (σ.bind [v] [⟨m, v.name⟩]).SplitFree (m + 1) :=
  (h.mono (by omega)).bind (by simp)

end Assignment.SplitFree

lemma Term.SplitFree.assign {n : Nat} (hσ : σ.SplitFree n) :
    {t : Term} → t.SplitFree n → ((t.assign σ).value n).SplitFree ((t.assign σ).next n)
  | .univ, _ => trivial
  | .var v, ht => by
    change ((σ.get? v).getD (.var v)).SplitFree n
    cases hget : σ.get? v with
    | none => exact ht
    | some t => exact hσ hget
  | .global _, _ => trivial
  | .pi v dom cod, ht | .lam v dom cod, ht => by
    have hk := dom.assign_next σ n
    have hcod := cod.assign_next (σ.bind [v] [⟨(dom.assign σ).next n, v.name⟩])
      ((dom.assign σ).next n + 1)
    refine ⟨hcod, (ht.2.1.assign hσ).mono (Nat.le_of_succ_le hcod), ?_⟩
    exact Term.SplitFree.assign (hσ.bindNext v hk) (ht.2.2.mono (by omega))
  | .app f a, ht | .ann f a, ht => by
    have hk := f.assign_next σ n
    exact ⟨(ht.1.assign hσ).mono (a.assign_next σ _),
      Term.SplitFree.assign (hσ.mono hk) (ht.2.mono hk)⟩
  | .absurd scrut, ht => Term.SplitFree.assign (t := scrut) hσ ht

mutual

/-- Substitution of terms without splits keeps a case tree one. -/
lemma Term.CaseTree.assign {n : Nat} (hσ : σ.SplitFree n) :
    {t : Term} → t.CaseTree n → ((t.assign σ).value n).CaseTree ((t.assign σ).next n)
  | .lam v dom body, ht => by
    have hk := dom.assign_next σ n
    have hbody := body.assign_next (σ.bind [v] [⟨(dom.assign σ).next n, v.name⟩])
      ((dom.assign σ).next n + 1)
    refine ⟨hbody, (ht.2.1.assign hσ).mono (Nat.le_of_succ_le hbody), ?_⟩
    exact Term.CaseTree.assign (hσ.bindNext v hk) (ht.2.2.mono (by omega))
  | .case scrut branches, ht => by
    have hk := scrut.assign_next σ n
    exact ⟨(ht.1.assign hσ).mono (branches.assign_next σ _),
      Branches.CaseTrees.assign (hσ.mono hk) (ht.2.mono hk)⟩
  | .var v, ht => (Term.SplitFree.assign (t := .var v) hσ ht).caseTree
  | .univ, _ | .global _, _ => trivial
  | .pi v dom cod, ht => Term.SplitFree.assign (t := .pi v dom cod) hσ ht
  | .app f a, ht => Term.SplitFree.assign (t := .app f a) hσ ht
  | .ann t type, ht => Term.SplitFree.assign (t := .ann t type) hσ ht
  | .absurd scrut, ht => Term.SplitFree.assign (t := .absurd scrut) hσ ht

lemma Branches.CaseTrees.assign {n : Nat} (hσ : σ.SplitFree n) :
    {bs : Branches} → bs.CaseTrees n → ((bs.assign σ).value n).CaseTrees ((bs.assign σ).next n)
  | .nil, _ => trivial
  | .cons _ fields body rest, hb => by
    have hk : n ≤ (Var.refreshAll fields).next n := by
      rw [Var.refreshAll_next]
      omega
    have hfields : ∀ w ∈ (Var.refreshAll fields).value n,
        w.id < (Var.refreshAll fields).next n := fun w hw => by
      have := (Var.refreshAll_taken fields n w hw).2
      rwa [Var.refreshAll_next]
    have hbody := body.assign_next (σ.bind fields ((Var.refreshAll fields).value n))
      ((Var.refreshAll fields).next n)
    have hrest := rest.assign_next σ ((body.assign (σ.bind fields
      ((Var.refreshAll fields).value n))).next ((Var.refreshAll fields).next n))
    refine ⟨fun w hw => ?_, ?_, ?_⟩
    · exact lt_of_lt_of_le (hfields w hw) (hbody.trans hrest)
    · have hbind : (σ.bind fields _).SplitFree _ := (hσ.mono hk).bind hfields
      exact (Term.CaseTree.assign hbind (hb.2.1.mono hk)).mono hrest
    · have hj := hk.trans hbody
      exact Branches.CaseTrees.assign (hσ.mono hj) (hb.2.2.mono hj)

end

lemma Term.splitFree_hereditary : Hereditary Term.SplitFree where
  mono hnm ht := ht.mono hnm
  below ht := ht.below
  var := .rfl
  app := .rfl
  dom h := h.2.1
  cod {n v _ cod a} h ha := h.2.2.assign (All.single (v := v) ha)
  apply {n σ t} hσ ht := by
    by_cases he : σ.isEmpty = true
    · rw [apply_of_isEmpty he]
      exact ht
    · rw [apply_of_not_isEmpty he]
      exact ht.assign hσ

lemma Term.CaseTree.apply {σ : Subst} (hσ : σ.All Term.SplitFree n) {t : Term}
    (ht : t.CaseTree n) : ((σ.apply t).value n).CaseTree ((σ.apply t).next n) := by
  by_cases he : σ.isEmpty = true
  · rw [apply_of_isEmpty he]
    exact ht
  · rw [apply_of_not_isEmpty he]
    exact ht.assign hσ

lemma Subst.get?_ofPairs (h : (ofPairs pairs).get? x = some t) : (x, t) ∈ pairs := by
  induction pairs using List.reverseRecOn with
  | nil => nomatch h
  | append_singleton pairs entry ih =>
    obtain ⟨v, u⟩ := entry
    rw [ofPairs_concat, get?_put] at h
    split at h
    · next hv =>
        cases h
        simp [hv]
    · exact mem_append_left _ (ih h)

/-! ### Telescopes and replacement -/

namespace Telescope

variable {n : Nat}

lemma splitFree_pis : (Γ.pis body).SplitFree n ↔ Γ.All Term.SplitFree n ∧ body.SplitFree n := by
  induction Γ with
  | nil => simp [pis, All]
  | cons e Γ ih =>
    have hstep : (pis (e :: Γ) body).SplitFree n ↔
        e.1.id < n ∧ e.2.SplitFree n ∧ (pis Γ body).SplitFree n := .rfl
    rw [hstep, ih]
    simp only [All, forall_mem_cons, and_assoc]

lemma caseTree_lams (hΓ : Γ.All Term.SplitFree n) (hbody : body.CaseTree n) :
    (Γ.lams body).CaseTree n := by
  induction Γ with
  | nil => exact hbody
  | cons e Γ ih =>
    obtain ⟨he, hΓ⟩ := forall_mem_cons.1 hΓ
    exact ⟨he.1, he.2, ih hΓ⟩

lemma splitFree_ofTypeUpTo (count : Nat) (h : type.SplitFree n) :
    (ofTypeUpTo count type).1.All Term.SplitFree n ∧ (ofTypeUpTo count type).2.SplitFree n := by
  fun_induction ofTypeUpTo count type with
  | case1 count v dom cod Γ body heq ih =>
    obtain ⟨hv, hdom, hcod⟩ := h
    rw [heq] at ih
    obtain ⟨hΓ, hbody⟩ := ih hcod
    exact ⟨forall_mem_cons.2 ⟨⟨hv, hdom⟩, hΓ⟩, hbody⟩
  | case2 => exact ⟨by simp [All], h⟩

end Telescope

lemma Term.SplitFree.abstract (target : Term) {replacement : Term} (hr : replacement.SplitFree n)
    {t : Term} (ht : t.SplitFree n) : (t.abstract target replacement).SplitFree n := by
  unfold Term.abstract
  split
  · exact hr
  · match t, ht with
    | .univ, ht | .var _, ht | .global _, ht => exact ht
    | .pi _ _ _, ht | .lam _ _ _, ht =>
      exact ⟨ht.1, SplitFree.abstract target hr ht.2.1, SplitFree.abstract target hr ht.2.2⟩
    | .app _ _, ht | .ann _ _, ht =>
      exact ⟨SplitFree.abstract target hr ht.1, SplitFree.abstract target hr ht.2⟩
    | .absurd a, ht => exact SplitFree.abstract (t := a) target hr ht

/-! ### Reduction -/

lemma Branches.CaseTrees.find? {bs : Branches} (hbs : bs.CaseTrees n)
    (h : bs.find? name = some branch) : branch.body.CaseTree n := by
  match bs with
  | .nil => simp [Branches.find?, toList] at h
  | .cons ctor fields body rest =>
    rw [find?_cons] at h
    split at h
    · cases h
      exact hbs.2.1
    · exact hbs.2.2.find? h

namespace Env

variable {env : Env}

lemma isStuck_case (scrut : Term) (branches : Branches) (args : List Term) :
    isStuck ((Term.case scrut branches).apps args) = true := by
  rw [isStuck, Term.spine, Term.spineOnto_apps]
  rfl

variable (hbody : ∀ ⦃g : Name⦄ ⦃body : Term⦄,
  env.sig.unfoldable? env.unfold g = some body → body.CaseTree n₀)

include hbody

/-- Reduction of a term without splits gives one.  That of a case tree does so
unless it ends at a split or a literal. -/
lemma Whnf.splitFree
    {head : Term} {n : Nat} (h : env.Whnf head args n u m) (hn : n₀ ≤ n)
    (hargs : ∀ a ∈ args, a.SplitFree n) : (head.SplitFree n → u.SplitFree m) ∧
      (head.CaseTree n → isStuck u = false → u.SplitFree m) := by
  have hP := Term.splitFree_hereditary
  induction h with
  | erase _ ih => exact ⟨fun ht => (ih hn hargs).1 ht.1, fun ht _ => (ih hn hargs).1 ht.1⟩
  | app _ ih =>
    have happ := fun ht : _ ∧ _ => (ih hn (forall_mem_cons.2 ⟨ht.2, hargs⟩)).1 ht.1
    exact ⟨happ, fun ht _ => happ ht⟩
  | @beta v dom body arg u args n m _ ih =>
    obtain ⟨harg, hargs⟩ := forall_mem_cons.1 hargs
    have hk := apply_next (.single v arg) body n
    have hih := ih (by omega) fun a ha => (hargs a ha).mono hk
    have hσ : (single v arg).All Term.SplitFree n := .single harg
    exact ⟨fun ht => hih.1 (hP.apply hσ ht.2.2), fun ht => hih.2 (ht.2.2.apply hσ)⟩
  | @select scrut w body u branches σ args n k m hscrut hmatch _ ihscrut ih =>
    refine ⟨fun ht => ht.elim, fun ht => ?_⟩
    have hw := (ihscrut hn (by simp)).1 ht.1
    have hk := hscrut.next
    obtain ⟨ctor, cargs, branch, hspine, hbranch, -, -, rfl, rfl⟩ := matchBranch?_eq_some hmatch
    obtain ⟨c, rfl, -⟩ := ctorSpine?_eq_some hspine
    have hσ : (ofPairs (branch.fields.zip (cargs.drop ctor.numParams))).All
        Term.SplitFree k := fun x t hx =>
      (hP.apps.1 hw).2 t (mem_of_mem_drop (of_mem_zip (get?_ofPairs hx)).2)
    have hj := hk.trans (apply_next
      (.ofPairs (branch.fields.zip (cargs.drop ctor.numParams))) branch.body k)
    exact (ih (by omega) fun a ha => (hargs a ha).mono hj).2
      (((ht.2.find? hbranch).mono hk).apply hσ)
  | stuck args _ _ _ =>
    refine ⟨fun ht => ht.elim, fun _ hstuck => ?_⟩
    rw [isStuck_case] at hstuck
    cases hstuck
  | unfold hget _ hstuck ih =>
    have hu := (ih hn hargs).2 ((hbody hget).mono hn) hstuck
    exact ⟨fun _ => hu, fun _ _ => hu⟩
  | @fold g body w args n m hget hrun hstuck ih =>
    have hu : ((Term.global g).apps args).SplitFree m :=
      hP.apps.2 ⟨trivial, fun a ha => (hargs a ha).mono hrun.next⟩
    exact ⟨fun _ => hu, fun _ _ => hu⟩
  | @rigid g args n _ =>
    have hu : ((Term.global g).apps args).SplitFree n := hP.apps.2 ⟨trivial, hargs⟩
    exact ⟨fun _ => hu, fun _ _ => hu⟩
  | literal => exact ⟨id, fun _ hstuck => nomatch hstuck⟩
  | @inert head args n hinert =>
    refine ⟨fun ht => hP.apps.2 ⟨ht, hargs⟩, fun ht _ => hP.apps.2 ⟨?_, hargs⟩⟩
    cases head <;> first | exact ht | cases hinert

/-- Reduction keeps terms without splits if functions unfold to case trees. -/
lemma keeps_splitFree
    : env.Keeps Term.SplitFree n₀ where
  hereditary := Term.splitFree_hereditary
  whnf hn ht hrun := ((Whnf.of_whnf hrun).splitFree hbody hn (by simp)).1 ht

end Env
end Clausal
