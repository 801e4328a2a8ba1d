import Clausal.Compilation.Split
import Clausal.Proofs.Matching
import Clausal.Proofs.Workspace

/-!
# Splitting problems

The refinements that a split leads to, what they make of a problem, and what a
run of the splitting is made of: each problem is settled by a row, is absurd,
or is split on a variable into refined problems.
-/

namespace Clausal

open Fresh List Subst
open Eval (Forward Returns Yields)

namespace Env

variable {env : Env} {Γ : Telescope}

/-! ### Names of fields -/

lemma nameAll_next (fields : List Var) (patterns : List Pattern) (n : Nat) :
    n ≤ (nameAll fields patterns).next n := by
  fun_induction nameAll fields patterns generalizing n with
  | case1 field fields pattern patterns ih =>
    have hfield : n ≤ (nameField field pattern).next n := by
      unfold nameField
      split
      · exact Nat.le_succ n
      · exact le_refl n
    exact hfield.trans (ih _)
  | case2 => exact le_refl n

/-- Fields take the names of patterns and stay distinct. -/
lemma nameAll_spec (patterns : List Pattern) (hnodup : fields.Nodup)
    (hids : ∀ x ∈ fields, x.id < n) :
    ((nameAll fields patterns).value n).Nodup ∧
      ∀ x ∈ (nameAll fields patterns).value n, (x ∈ fields ∨ n ≤ x.id) ∧
        x.id < (nameAll fields patterns).next n := by
  fun_induction nameAll fields patterns generalizing n with
  | case1 field fields pattern patterns ih =>
    obtain ⟨hnot, hnodup⟩ := nodup_cons.1 hnodup
    obtain ⟨hfield, hids⟩ := forall_mem_cons.1 hids
    -- The field keeps its variable, or gets the next one of the supply.
    obtain ⟨x, k, hx, hnext, hcases⟩ : ∃ x k, (nameField field pattern).value n = x ∧
        (nameField field pattern).next n = k ∧ (x = field ∧ k = n ∨ x.id = n ∧ k = n + 1) := by
      refine ⟨_, _, rfl, rfl, ?_⟩
      unfold nameField
      split
      · exact .inr ⟨rfl, rfl⟩
      · exact .inl ⟨rfl, rfl⟩
    have hk : n ≤ k := by omega
    have hxk : x.id < k := by
      rcases hcases with ⟨rfl, rfl⟩ | ⟨hid, rfl⟩
      · exact hfield
      · omega
    obtain ⟨hrest, hmem⟩ := ih hnodup fun y hy => lt_of_lt_of_le (hids y hy) hk
    have hle := nameAll_next fields patterns k
    simp only [value_bind, next_bind, value_pure, next_pure, hx, hnext]
    refine ⟨nodup_cons.2 ⟨fun hin => ?_, hrest⟩, fun y hy => ?_⟩
    · rcases (hmem x hin).1 with hfields | hlater
      · rcases hcases with ⟨rfl, -⟩ | ⟨hid, -⟩
        · exact hnot hfields
        · have := hids x hfields
          omega
      · omega
    · rcases mem_cons.1 hy with rfl | hy
      · refine ⟨?_, by omega⟩
        rcases hcases with ⟨rfl, -⟩ | ⟨hid, -⟩
        · exact .inl mem_cons_self
        · exact .inr (by omega)
      · obtain ⟨hold | hnew, hlt⟩ := hmem y hy
        · exact ⟨.inl (mem_cons_of_mem _ hold), hlt⟩
        · exact ⟨.inr (by omega), hlt⟩
  | case2 => simp

/-! ### Refinements -/

/-- How a refinement was computed, from a supply to another. -/
structure Refined (env : Env) (Γ : Telescope) (v : Var) (n : Nat) (r : Refinement) (m : Nat) where
  given : Option (List Var)
  start : Nat
  middle : Nat
  last : Nat
  splitting : Splitting env Γ v r.ctor given start middle
  unifier : Unifier
  le_start : n ≤ start
  /-- Fields that were given are new to the context. -/
  given_new : ∀ vs, given = some vs → vs.Nodup ∧ ∀ x ∈ vs, n ≤ x.id ∧ x.id < start
  unify : Returns (unify env splitting.refined splitting.equations) middle
    (.ok (.success unifier)) last
  fields_eq : r.fields = splitting.fields.vars
  context_eq : r.context = unifier.context
  subst_eq : r.subst = ((single v splitting.value).compose unifier.subst).value last
  next_le : ((single v splitting.value).compose unifier.subst).next last ≤ m

lemma refined_of_yields (hn : n ≤ k)
    (hgiven : ∀ vs, given = some vs → vs.Nodup ∧ ∀ x ∈ vs, n ≤ x.id ∧ x.id < k)
    (h : Yields (env.refine Γ v c given) k (.possible r) m) :
    r.ctor = c ∧ Nonempty (Refined env Γ v n r m) := by
  obtain ⟨l, s, ⟨u, j, hunify, heq, hnext⟩ | ⟨-, heq⟩⟩ := refine_yields h
  · obtain rfl := Candidate.possible.inj heq
    exact ⟨rfl, ⟨given, k, l, j, s, u, hn, hgiven, hunify, rfl, rfl, rfl, le_of_eq hnext⟩⟩
  · cases heq

namespace Refined

variable {n m : Nat}

lemma mono (h : Refined env Γ v n r m) (hn : n' ≤ n) (hm : m ≤ m') :
    Nonempty (Refined env Γ v n' r m') :=
  ⟨{ h with
      le_start := hn.trans h.le_start
      given_new := fun vs hvs => ⟨(h.given_new vs hvs).1, fun x hx =>
        ⟨hn.trans ((h.given_new vs hvs).2 x hx).1, ((h.given_new vs hvs).2 x hx).2⟩⟩
      next_le := h.next_le.trans hm }⟩

lemma supply (h : Refined env Γ v n r m) :
    n ≤ h.start ∧ h.start ≤ h.middle ∧ h.middle ≤ h.last ∧ h.last ≤ m := by
  obtain ⟨h₁, h₂, h₃, h₄, h₅⟩ := h.splitting.supply
  refine ⟨h.le_start, by omega, env.unify_forward _ _ h.unify, ?_⟩
  exact le_trans (compose_next _ _ _) h.next_le

lemma given_lt (h : Refined env Γ v n r m) : ∀ vs, h.given = some vs → ∀ x ∈ vs, x.id < h.start :=
  fun vs hvs x hx => ((h.given_new vs hvs).2 x hx).2

/-- The fields are different variables that are new to the context. -/
lemma fields_new (h : Refined env Γ v n r m) :
    r.fields.Nodup ∧ ∀ x ∈ r.fields, n ≤ x.id ∧ x.id < h.middle := by
  obtain ⟨h₁, h₂, h₃, h₄, h₅⟩ := h.splitting.supply
  have hstart := h.le_start
  obtain ⟨-, hvars⟩ := h.splitting.binds h.given_lt
  rw [h.fields_eq]
  by_cases hgiven : h.given = none
  · obtain ⟨hnodup, hids⟩ := hvars.fresh hgiven
    refine ⟨hnodup, fun x hx => ?_⟩
    have := hids x hx
    omega
  · obtain ⟨vs, hvs⟩ := Option.ne_none_iff_exists'.1 hgiven
    obtain ⟨hnodup, hids⟩ := h.given_new vs hvs
    rw [hvars.given vs hvs, drop_zero]
    refine ⟨hnodup.sublist (take_sublist _ _), fun x hx => ?_⟩
    have := hids x (mem_of_mem_take hx)
    omega

lemma fields_notMem (h : Refined env Γ v n r m) (hΓ : ∀ x ∈ Γ.vars, x.id < n) :
    ∀ x ∈ r.fields, x ∉ Γ.vars := fun x hx hmem =>
  lt_irrefl n (lt_of_le_of_lt (h.fields_new.2 x hx).1 (hΓ x hmem))

section

variable (h : Refined env Γ v n r m) (henv : env.Admits P n)
  (hc : P n (.global r.ctor)) (hΓ : Γ.All P n)

include h henv hc hΓ

lemma unifier_all : h.unifier.context.All P h.last ∧ h.unifier.subst.All P h.last ∧
    (h.splitting.refined.vars.Nodup → h.unifier.context.vars.Nodup) ∧
      ∀ x ∈ h.unifier.context.vars,
        x ∈ h.splitting.refined.vars ∧ h.unifier.subst.get? x = none := by
  have hP := henv.keeps.hereditary
  obtain ⟨h₁, h₂, -⟩ := h.supply
  have henv' := henv.mono h₁
  have hc' := hP.mono h₁ hc
  have hΓ' := hP.telescope_mono hΓ h₁
  exact unify_success (henv'.keeps.mono h₂) (h.splitting.refined_all henv' hc' hΓ' h.given_lt)
    (h.splitting.equations_all henv' hc' hΓ' h.given_lt) h.unify

lemma value_all : P h.last h.splitting.value := by
  have hP := henv.keeps.hereditary
  obtain ⟨h₁, -, h₃, -⟩ := h.supply
  obtain ⟨-, -, -, h₄, h₅⟩ := h.splitting.supply
  have hvalue := h.splitting.value_all (henv.mono h₁) (hP.mono h₁ hc) (hP.telescope_mono hΓ h₁)
    h.given_lt
  exact hP.mono (by omega) hvalue

lemma context_all : r.context.All P m := by
  have hP := henv.keeps.hereditary
  rw [h.context_eq]
  exact hP.telescope_mono (h.unifier_all henv hc hΓ).1 h.supply.2.2.2

lemma context_sub : ∀ x ∈ r.context.vars, x ∈ r.fields ∨ x ∈ Γ.vars := by
  intro x hx
  rw [h.context_eq] at hx
  obtain ⟨hx, -⟩ := (h.unifier_all henv hc hΓ).2.2.2 x hx
  rw [h.splitting.refined_vars, ← h.fields_eq] at hx
  rw [h.splitting.vars_eq]
  simp only [mem_append, mem_cons] at hx ⊢
  rcases hx with (hx | hx) | hx
  · exact .inr (.inl hx)
  · exact .inl hx
  · exact .inr (.inr (.inr hx))

lemma subst_all : r.subst.All P m := by
  have hP := henv.keeps.hereditary
  obtain ⟨-, hsubst, -⟩ := h.unifier_all henv hc hΓ
  rw [h.subst_eq]
  exact (All.compose (.single (h.value_all henv hc hΓ)) hP hsubst).mono hP h.next_le

end

lemma mem_refined (h : Refined env Γ v n r m) (hnodup : Γ.vars.Nodup)
    (hx : x ∈ h.splitting.refined.vars) : x ∈ Γ.vars ∧ x ≠ v ∨ x ∈ r.fields := by
  rw [h.splitting.refined_vars, ← h.fields_eq] at hx
  rw [h.splitting.vars_eq] at hnodup ⊢
  obtain ⟨-, hright, hdisjoint⟩ := nodup_append.1 hnodup
  rcases mem_append.1 hx with hx | hx
  · rcases mem_append.1 hx with hx | hx
    · exact .inl ⟨mem_append_left _ hx, hdisjoint x hx v mem_cons_self⟩
    · exact .inr hx
  · refine .inl ⟨mem_append_right _ (mem_cons_of_mem v hx), fun he => ?_⟩
    exact (nodup_cons.1 hright).1 (he ▸ hx)

lemma refined_nodup (h : Refined env Γ v n r m) (hnodup : Γ.vars.Nodup)
    (hΓ : ∀ x ∈ Γ.vars, x.id < n) : h.splitting.refined.vars.Nodup := by
  obtain ⟨hfields, -⟩ := h.fields_new
  have hnew := h.fields_notMem hΓ
  rw [h.splitting.refined_vars, ← h.fields_eq]
  rw [h.splitting.vars_eq] at hnodup hnew
  obtain ⟨hleft, hright, hdisjoint⟩ := nodup_append.1 hnodup
  refine nodup_append.2 ⟨nodup_append.2 ⟨hleft, hfields, ?_⟩, hright.of_cons, ?_⟩
  · rintro x hx y hy rfl
    exact hnew x hy (mem_append_left _ hx)
  · rintro x hx y hy rfl
    rcases mem_append.1 hx with hx | hx
    · exact hdisjoint x hx x (mem_cons_of_mem v hy) rfl
    · exact hnew x hx (mem_append_right _ (mem_cons_of_mem v hy))

end Refined

/-! ### The refinements of a split -/

lemma nameFields_forward (pattern : Pattern) (r : Refinement) :
    Forward (env.nameFields Γ v pattern r).run := by
  unfold nameFields
  split
  · split
    · refine .run_bind (.run_liftFresh (nameAll_next _ _)) fun fields => ?_
      refine .run_bind (refine_forward _ _ _ _) fun candidate => ?_
      split
      · exact .run_pure _
      · exact .run_pure _
    · exact .run_pure _
  · exact .run_pure _

lemma refinements_forward (pattern : Pattern) : Forward (env.refinements Γ v pattern).run := by
  unfold refinements
  exact .run_bind (constructors_forward _ _) fun _ => .run_mapM (fun _ => nameFields_forward _ _) _

lemma refine_ctor (h : Yields (env.refine Γ v c given) n candidate m) : candidate.ctor = c := by
  obtain ⟨l, s, ⟨u, j, -, rfl, -⟩ | ⟨-, rfl⟩⟩ := refine_yields h <;> rfl

lemma nameFields_refined (n : Nat) (h : Yields (env.nameFields Γ v pattern r) l named m) :
    named.ctor = r.ctor ∧
      (Nonempty (Refined env Γ v n r l) → Nonempty (Refined env Γ v n named m)) := by
  have hsame : l ≤ m → r.ctor = r.ctor ∧
      (Nonempty (Refined env Γ v n r l) → Nonempty (Refined env Γ v n r m)) :=
    fun hm => ⟨rfl, fun ⟨hr⟩ => hr.mono (le_refl n) hm⟩
  have hm := nameFields_forward pattern r h
  unfold nameFields at h
  split at h
  · next span ctor args =>
      split at h
      · next hctor =>
          simp only [Eval.yields_bind, Eval.yields_liftFresh] at h
          obtain ⟨_, _, ⟨rfl, rfl⟩, candidate, j, hrefine, h⟩ := h
          split at h
          · next named' =>
              obtain ⟨rfl, rfl⟩ := Eval.yields_pure.1 h
              have hname : named'.ctor = ctor := refine_ctor hrefine
              refine ⟨hname.trans (by simpa using hctor), fun ⟨hr⟩ => ?_⟩
              obtain ⟨hstart, h₂, h₃, h₄⟩ := hr.supply
              have hnext := nameAll_next r.fields args l
              obtain ⟨hnodup, hids⟩ := hr.fields_new
              obtain ⟨hvs, hmem⟩ := nameAll_spec args hnodup fun x hx =>
                lt_of_lt_of_le (hids x hx).2 (h₃.trans h₄)
              refine (refined_of_yields (by omega) (fun vs heq => ?_) hrefine).2
              cases heq
              refine ⟨hvs, fun x hx => ?_⟩
              obtain ⟨hold | hnew, hlt⟩ := hmem x hx
              · exact ⟨(hids x hold).1, hlt⟩
              · exact ⟨by omega, hlt⟩
          · obtain ⟨rfl, rfl⟩ := Eval.yields_pure.1 h
            exact hsame hm
      · obtain ⟨rfl, rfl⟩ := Eval.yields_pure.1 h
        exact hsame hm
  · obtain ⟨rfl, rfl⟩ := Eval.yields_pure.1 h
    exact hsame hm

lemma refinements_sublist (candidates : List Candidate) :
    ((candidates.filterMap (·.refinement?)).map (·.ctor)).Sublist
      (candidates.map (·.ctor)) := by
  induction candidates with
  | nil => exact .slnil
  | cons candidate candidates ih =>
    cases candidate with
    | possible r => exact ih.cons_cons _
    | impossible c => exact ih.cons _

/-- Every constructor of the variable's family has a refinement, or it is
impossible. -/
structure Refinements (env : Env) (Γ : Telescope) (v : Var) (n : Nat) (rs : List Refinement)
    (m : Nat) where
  family : Family
  args : List Term
  first : Nat
  splitType : Yields (env.splitType Γ v) n (family, args) first
  ctors : (rs.map (·.ctor)).Sublist family.ctors
  refined : ∀ r ∈ rs, Nonempty (Refined env Γ v n r m)
  covered : ∀ c ∈ family.ctors, (∃ r ∈ rs, r.ctor = c) ∨
    ∃ k l, n ≤ k ∧ Yields (env.refine Γ v c none) k (.impossible c) l

lemma refinements_yields (h : Yields (env.refinements Γ v pattern) n rs m) :
    Nonempty (Refinements env Γ v n rs m) := by
  simp only [refinements, constructors, Eval.yields_bind] at h
  obtain ⟨candidates, l, ⟨⟨family, args⟩, k, hsplit, hcandidates⟩, hnames⟩ := h
  have hk := splitType_forward _ _ hsplit
  have hruns := Eval.yields_mapM (fun c => refine_forward Γ v c none) hcandidates
  have hnamed : List.Forall₂ (fun r named : Refinement => named.ctor = r.ctor ∧
      (Nonempty (Refined env Γ v n r l) → Nonempty (Refined env Γ v n named m)))
      (candidates.filterMap (·.refinement?)) rs := by
    refine (Eval.yields_mapM (fun r => nameFields_forward pattern r) hnames).imp ?_
    rintro r named ⟨i, j, hi, hj, hrun⟩
    obtain ⟨hname, hrefined⟩ := nameFields_refined n hrun
    refine ⟨hname, ?_⟩
    rintro ⟨hr⟩
    obtain ⟨hr⟩ := hrefined (hr.mono (le_refl n) hi)
    exact hr.mono (le_refl n) hj
  have hctors : rs.map (·.ctor) = (candidates.filterMap (·.refinement?)).map (·.ctor) :=
    (map_eq_of_forall₂ hnamed fun r named h => h.1.symm).symm
  refine ⟨family, args, k, hsplit, ?_, fun named hmem => ?_, fun c hc => ?_⟩
  · have hnames : family.ctors.map id = candidates.map (·.ctor) :=
      map_eq_of_forall₂ hruns fun c candidate h => by
        obtain ⟨_, _, _, _, hrun⟩ := h
        exact (refine_ctor hrun).symm
    rw [hctors, ← family.ctors.map_id, hnames]
    exact refinements_sublist candidates
  · obtain ⟨r, hr, -, hrefined⟩ := mem_of_forall₂ hnamed hmem
    obtain ⟨candidate, hcandidate, heq⟩ := mem_filterMap.1 hr
    cases candidate with
    | impossible c => cases heq
    | possible r' =>
      cases heq
      obtain ⟨c, -, i, j, hi, hj, hrun⟩ := mem_of_forall₂ hruns hcandidate
      obtain ⟨-, ⟨hr⟩⟩ := refined_of_yields (hk.trans hi) (by simp) hrun
      exact hrefined (hr.mono (le_refl n) hj)
  · obtain ⟨candidate, hcandidate, i, j, hi, hj, hrun⟩ := mem_of_forall₂ hruns.flip hc
    cases candidate with
    | impossible d =>
      obtain rfl : d = c := refine_ctor hrun
      exact .inr ⟨i, j, hk.trans hi, hrun⟩
    | possible r =>
      have hmem : r.ctor ∈ rs.map (·.ctor) := by
        rw [hctors]
        exact mem_map_of_mem (mem_filterMap.2 ⟨_, hcandidate, rfl⟩)
      obtain ⟨named, hnamed, heq⟩ := mem_map.1 hmem
      exact .inl ⟨named, hnamed, heq.trans (refine_ctor hrun)⟩

/-! ### Empty variables -/

lemma isEmpty_forward (Γ : Telescope) (v : Var) : Forward (env.isEmpty Γ v) := by
  unfold isEmpty
  refine .bind (constructors_forward Γ v) fun r => ?_
  split <;> exact .pure _

lemma findEmptyAmong_returns (h : Returns (env.findEmptyAmong Γ vs) n r m) :
    n ≤ m ∧ ∀ v, r = some v → v ∈ vs ∧ ∃ k l, n ≤ k ∧ Returns (env.isEmpty Γ v) k true l := by
  induction vs generalizing n with
  | nil =>
    obtain ⟨rfl, rfl⟩ := Eval.returns_pure.1 h
    exact ⟨le_refl n, by simp⟩
  | cons w vs ih =>
    simp only [findEmptyAmong, Eval.returns_bind] at h
    obtain ⟨b, k, hw, h⟩ := h
    have hk := isEmpty_forward Γ w hw
    split at h
    · next hb =>
        obtain ⟨rfl, rfl⟩ := Eval.returns_pure.1 h
        refine ⟨hk, fun v hv => ?_⟩
        cases hv
        exact ⟨mem_cons_self, n, k, le_refl n, hb ▸ hw⟩
    · obtain ⟨hm, hfound⟩ := ih h
      refine ⟨hk.trans hm, fun v hv => ?_⟩
      obtain ⟨hmem, j, l, hj, hempty⟩ := hfound v hv
      exact ⟨mem_cons_of_mem w hmem, j, l, hk.trans hj, hempty⟩

lemma findEmpty_forward (Γ : Telescope) : Forward (env.findEmpty Γ) := fun _ _ _ h =>
  (findEmptyAmong_returns h).1

lemma findEmpty_mem (h : Returns (env.findEmpty Γ) n (some v) m) : v ∈ Γ.vars :=
  ((findEmptyAmong_returns h).2 v rfl).1

end Env

/-! ### Refined problems -/

namespace Problem

/-- A problem and what a refinement makes of it. -/
structure Refines (r : Refinement) (n m : Nat) (p q : Problem) : Prop where
  le : n ≤ m
  context : q.context = r.context
  goal : r.subst.Applied n m p.goal q.goal
  args : List.Forall₂ (r.subst.Applied n m) p.args q.args
  locals : List.Forall₂ (fun e e' : Name × Term => e'.1 = e.1 ∧ r.subst.Applied n m e.2 e'.2)
    p.locals q.locals

lemma refine_refines (p : Problem) (r : Refinement) (n : Nat) :
    Refines r n ((p.refine r).next n) p ((p.refine r).value n) := by
  have hgoal := applied r.subst p.goal n
  have hk := apply_next r.subst p.goal n
  obtain ⟨hl, hargs⟩ := applyAll_spec r.subst p.args ((r.subst.apply p.goal).next n)
  obtain ⟨hm, hlocals⟩ := mapM_spec
    (f := fun entry : Name × Term => do
      let t ← r.subst.apply entry.2
      return (entry.1, t))
    (fun entry n => apply_next r.subst entry.2 n) p.locals
    ((r.subst.applyAll p.args).next ((r.subst.apply p.goal).next n))
  refine ⟨hk.trans (hl.trans hm), rfl, ?_, ?_, ?_⟩
  · exact hgoal.mono (le_refl n) (hl.trans hm)
  · exact hargs.imp fun _ _ h => h.mono hk hm
  · refine hlocals.imp fun e e' h => ?_
    obtain ⟨j, hj, hnext, rfl⟩ := h
    exact ⟨rfl, j, le_trans (hk.trans hl) hj, hnext, rfl⟩

lemma Refines.splitFree (h : Refines r n m p q) (hr : r.context.All Term.SplitFree n)
    (hσ : r.subst.All Term.SplitFree n) (hp : p.SplitFree n) : q.SplitFree m := by
  have hP := Term.splitFree_hereditary
  refine ⟨?_, hσ.applied hP h.goal hp.goal, fun a ha => ?_, fun e he => ?_⟩
  · rw [h.context]
    exact hP.telescope_mono hr h.le
  · obtain ⟨b, hb, hab⟩ := mem_of_forall₂ h.args ha
    exact hσ.applied hP hab (hp.args b hb)
  · obtain ⟨e', he', -, happ⟩ := mem_of_forall₂ h.locals he
    exact hσ.applied hP happ (hp.locals e' he')

end Problem

/-! ### Runs -/

/-- The environment in which a step is taken. -/
abbrev Workspace.env (w : Workspace) : Env := { sig := w.sig }

namespace Compile

mutual

/-- A run that splits a problem by some rows, from a workspace and a supply to
others: the tree, and the rows that were reached. -/
inductive Splits (target : SplitTarget) (settle : ReachedRow → Compile SplitTree) :
    Workspace → Nat → Problem → List (Nat × Row) → SplitTree → List Nat → Workspace → Nat → Prop
  | settled {w w' : Workspace} {n k m : Nat} {p : Problem} {rows : List (Nat × Row)} {index : Nat}
      {row : Row} {locals : Surface.Locals} {forced : List Forced} {tree : SplitTree} :
      Returns (w.env.decideRows p rows) n (.reached index row locals forced) k →
      Yields (settle { index, row, problem := p, locals, forced }) w k tree w' m →
      Splits target settle w n p rows tree [index] w' m
  /-- No row matches, and the problem has an empty variable. -/
  | exhausted {w : Workspace} {n k m : Nat} {p : Problem} {rows : List (Nat × Row)} {v : Var} :
      Returns (w.env.decideRows p rows) n .exhausted k →
      Returns (w.env.findEmpty p.context) k (some v) m →
      Splits target settle w n p rows (.absurd p.context v p.args p.goal) [] w m
  /-- The variable to split has no possible constructor. -/
  | empty {w : Workspace} {n k m : Nat} {p : Problem} {rows later : List (Nat × Row)} {v : Var}
      {pattern : Pattern} :
      Returns (w.env.decideRows p rows) n (.split v pattern later) k →
      Eval.Yields (w.env.refinements p.context v pattern) k [] m →
      Splits target settle w n p rows (.absurd p.context v p.args p.goal) [] w m
  | split {w w' : Workspace} {n k l m : Nat} {p : Problem} {rows later : List (Nat × Row)} {v : Var}
      {pattern : Pattern} {r : Refinement} {rs : List Refinement} {branches : SplitBranches}
      {reached : List Nat} : Returns (w.env.decideRows p rows) n (.split v pattern later) k →
      Eval.Yields (w.env.refinements p.context v pattern) k (r :: rs) l →
      SplitsAll target settle w l p later (r :: rs) branches reached w' m →
      Splits target settle w n p rows (.split p.context v branches) reached w' m

/-- A run that splits the refinements of a problem. -/
inductive SplitsAll (target : SplitTarget) (settle : ReachedRow → Compile SplitTree) :
    Workspace → Nat → Problem → List (Nat × Row) → List Refinement → SplitBranches → List Nat →
      Workspace → Nat → Prop
  | nil (w : Workspace) (n : Nat) (p : Problem) (rows : List (Nat × Row)) :
      SplitsAll target settle w n p rows [] .nil [] w n
  | cons {w w₁ w' : Workspace} {n l m fuel : Nat} {p : Problem} {rows : List (Nat × Row)}
      {r : Refinement} {rs : List Refinement} {tree : SplitTree} {branches : SplitBranches}
      {reached later : List Nat} :
      Yields (split target settle fuel ((p.refine r).value n) rows) w ((p.refine r).next n)
        (tree, reached) w₁ l →
      Splits target settle w ((p.refine r).next n) ((p.refine r).value n) rows tree reached w₁ l →
      SplitsAll target settle w₁ l p rows rs branches later w' m →
      SplitsAll target settle w n p rows (r :: rs) (.cons r.ctor r.fields tree branches)
        (reached ++ later) w' m

end

mutual

/-- A run of splitting makes a tree, by induction on the fuel. -/
lemma splits_of_split :
    (fuel : Nat) → ∀ {p rows w w' n m tree reached},
    Yields (split target settle fuel p rows) w n (tree, reached) w' m →
    Splits target settle w n p rows tree reached w' m
  | 0, _, _, _, _, _, _, _, _, h => (yields_outOfFuel h).elim
  | fuel + 1, p, rows, w, w', n, m, tree, reached, h => by
    simp only [split, yields_bind, yields_env, yields_lift] at h
    obtain ⟨_, _, _, ⟨rfl, rfl, rfl⟩, decision, w₁, k, ⟨hdecide, rfl⟩, h⟩ := h
    split at h
    · next index row locals forced =>
        simp only [yields_bind, yields_pure] at h
        obtain ⟨tree', w₂, j, hsettle, heq, rfl, rfl⟩ := h
        cases heq
        exact .settled hdecide hsettle
    · simp at h
    · simp only [yields_bind, yields_env, yields_lift] at h
      obtain ⟨_, _, _, ⟨rfl, rfl, rfl⟩, found, w₂, j, ⟨hfind, rfl⟩, h⟩ := h
      split at h
      · obtain ⟨heq, rfl, rfl⟩ := yields_pure.1 h
        cases heq
        exact .exhausted hdecide hfind
      · simp at h
    · next v pattern later =>
        simp only [yields_bind, yields_env, yields_checked] at h
        obtain ⟨_, _, _, ⟨rfl, rfl, rfl⟩, rs, w₂, j, ⟨hrefine, rfl⟩, h⟩ := h
        cases rs with
        | nil =>
          obtain ⟨heq, rfl, rfl⟩ := yields_pure.1 h
          cases heq
          exact .empty hdecide hrefine
        | cons r rs =>
          simp only [yields_bind, yields_pure] at h
          obtain ⟨⟨branches, reached'⟩, w₃, l, hbranches, heq, rfl, rfl⟩ := h
          cases heq
          exact .split hdecide hrefine (splitsAll_of_splitBranches fuel hbranches)

lemma splitsAll_of_splitBranches : (fuel : Nat) →
    ∀ {p rows rs w w' n m branches reached},
    Yields (splitBranches target settle fuel p rows rs) w n (branches, reached) w' m →
    SplitsAll target settle w n p rows rs branches reached w' m
  | 0, _, _, _, _, _, _, _, _, _, h => (yields_outOfFuel h).elim
  | _ + 1, p, rows, [], w, w', n, m, branches, reached, h => by
    obtain ⟨heq, rfl, rfl⟩ := yields_pure.1 h
    cases heq
    exact .nil w n p rows
  | fuel + 1, p, rows, r :: rs, w, w', n, m, branches, reached, h => by
    simp only [splitBranches, yields_bind, yields_liftFresh, yields_pure] at h
    obtain ⟨_, _, _, ⟨rfl, rfl, rfl⟩, ⟨tree, first⟩, w₁, l, htree, ⟨rest, later⟩, w₂, j, hrest,
      heq, rfl, rfl⟩ := h
    cases heq
    exact .cons htree (splits_of_split fuel htree) (splitsAll_of_splitBranches fuel hrest)

end

/-! ### Calls of splitting -/

/-- A call of splitting: a problem, or the refinements that are left of one. -/
inductive SplitCall where
  | problem (p : Problem) (rows : List (Nat × Row))
  | branches (p : Problem) (rows : List (Nat × Row)) (rs : List Refinement)

/-- The calls that splitting makes, with the number of splits above them, and the
workspace and the supply in which they are made. -/
inductive Visits (target : SplitTarget) (settle : ReachedRow → Compile SplitTree)
    (p : Problem) (rows : List (Nat × Row)) (w : Workspace) (n : Nat) :
    Nat → SplitCall → Workspace → Nat → Prop
  | start : Visits target settle p rows w n 0 (.problem p rows) w n
  /-- The problem is to be split on a variable. -/
  | enter {depth : Nat} {q : Problem} {others later : List (Nat × Row)} {v : Var}
      {pattern : Pattern} {rs : List Refinement} {w₁ : Workspace} {i k l : Nat} :
      Visits target settle p rows w n depth (.problem q others) w₁ i →
      Returns (w₁.env.decideRows q others) i (.split v pattern later) k →
      Eval.Yields (w₁.env.refinements q.context v pattern) k rs l →
      Visits target settle p rows w n depth (.branches q later rs) w₁ l
  /-- The first refinement that is left is split. -/
  | branch {depth : Nat} {q : Problem} {others : List (Nat × Row)} {r : Refinement}
      {rs : List Refinement} {w₁ : Workspace} {i : Nat} :
      Visits target settle p rows w n depth (.branches q others (r :: rs)) w₁ i →
      Visits target settle p rows w n (depth + 1) (.problem ((q.refine r).value i) others) w₁
        ((q.refine r).next i)
  /-- It has been split, and the next ones are left. -/
  | next {depth fuel : Nat} {q : Problem} {others : List (Nat × Row)} {r : Refinement}
      {rs : List Refinement} {w₁ w₂ : Workspace} {i j : Nat} {result : SplitTree × List Nat} :
      Visits target settle p rows w n depth (.branches q others (r :: rs)) w₁ i →
      Yields (split target settle fuel ((q.refine r).value i) others) w₁ ((q.refine r).next i)
        result w₂ j →
      Visits target settle p rows w n depth (.branches q others rs) w₂ j

/-- The rows of a call. -/
def SplitCall.rows : SplitCall → List (Nat × Row)
  | .problem _ rows | .branches _ rows _ => rows

section Visits

/-- Splitting goes on with some of the rows, in their order. -/
lemma Visits.suffix (h : Visits target settle p rows w n depth call w₁ i) :
    call.rows <:+ rows := by
  induction h with
  | start => exact List.suffix_refl _
  | enter _ hdecide _ ih => exact (Env.decideRows_split hdecide).trans ih
  | branch _ ih | next _ _ ih => exact ih

end Visits

/-! ### Rows that are settled -/

/-- Settling the rows that splitting reaches respects a relation. -/
def Respects (R : Workspace → Workspace → Prop) (target : SplitTarget)
    (settle : ReachedRow → Compile SplitTree) (p : Problem) (rows : List (Nat × Row))
    (w : Workspace) (n : Nat) : Prop :=
  ∀ ⦃depth : Nat⦄ ⦃q : Problem⦄ ⦃others : List (Nat × Row)⦄ ⦃w₁ w₂ : Workspace⦄ ⦃i k j index : Nat⦄
    ⦃row : Row⦄ ⦃locals : Surface.Locals⦄ ⦃forced : List Forced⦄ ⦃tree : SplitTree⦄,
    Visits target settle p rows w n depth (.problem q others) w₁ i →
    Returns (w₁.env.decideRows q others) i (.reached index row locals forced) k →
    Yields (settle { index, row, problem := q, locals, forced }) w₁ k tree w₂ j → R w₁ w₂

mutual

/-- What settling respects, splitting respects. -/
lemma Splits.relates (hrefl : ∀ w, R w w) (htrans : ∀ {w₁ w₂ w₃}, R w₁ w₂ → R w₂ w₃ → R w₁ w₃)
    (hsettle : Respects R target settle p rows w n)
    (hvisits : Visits target settle p rows w n depth (.problem q others) w₁ i) :
    Splits target settle w₁ i q others tree reached w₂ j → R w₁ w₂
  | .settled hdecide hyields => hsettle hvisits hdecide hyields
  | .exhausted _ _ | .empty _ _ => hrefl w₁
  | .split hdecide hrefine hall =>
    SplitsAll.relates hrefl htrans hsettle (.enter hvisits hdecide hrefine) hall

lemma SplitsAll.relates (hrefl : ∀ w, R w w)
    (htrans : ∀ {w₁ w₂ w₃}, R w₁ w₂ → R w₂ w₃ → R w₁ w₃)
    (hsettle : Respects R target settle p rows w n)
    (hvisits : Visits target settle p rows w n depth (.branches q others rs) w₁ i) :
    SplitsAll target settle w₁ i q others rs branches reached w₂ j → R w₁ w₂
  | .nil _ _ _ _ => hrefl w₁
  | .cons hrun hsplits hall =>
    htrans (Splits.relates hrefl htrans hsettle (.branch hvisits) hsplits)
      (SplitsAll.relates hrefl htrans hsettle (.next hvisits hrun) hall)

end

/-- What settling respects holds between the start and every call that is visited. -/
lemma Visits.related (hrefl : ∀ w, R w w) (htrans : ∀ {w₁ w₂ w₃}, R w₁ w₂ → R w₂ w₃ → R w₁ w₃)
    (hsettle : Respects R target settle p rows w n)
    (h : Visits target settle p rows w n depth call w₁ i) : R w w₁ := by
  induction h with
  | start => exact hrefl w
  | enter _ _ _ ih | branch _ ih => exact ih
  | @next _ fuel _ _ _ _ _ _ _ _ _ hvisits hsplit ih =>
    exact htrans ih (Splits.relates hrefl htrans hsettle (.branch hvisits)
      (splits_of_split fuel hsplit))

end Compile
end Clausal
