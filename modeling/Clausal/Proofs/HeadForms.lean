import Clausal.Proofs.Reduction

/-!
# Constructor forms

If weak-head steps lead from a term to a constructor form, then weak-head reduction
returns it, although it may stop earlier than the steps do.
-/

namespace Clausal

open List Option Term

namespace Nameless

/-! ### Rules that extend others -/

/-- Every rule of the first is a rule of the second. -/
structure Rules.Le (R R' : Rules) : Prop where
  unfold : ∀ {g : Name} {body : Nameless}, R.unfold g = some body → R'.unfold g = some body
  ctor : ∀ {c : Name} {k : Name × Nat}, R.ctor c = some k → R'.ctor c = some k

lemma Rules.Le.refl (R : Rules) : R.Le R := ⟨id, id⟩

lemma Rules.Le.trans {R : Rules} (h : R.Le R') (h' : R'.Le R'') : R.Le R'' :=
  ⟨fun hg => h'.unfold (h.unfold hg), fun hc => h'.ctor (h.ctor hc)⟩

lemma HeadStep.mono (hle : R.Le R') (h : HeadStep R t u) : HeadStep R' t u := by
  induction h with
  | beta a b x => exact .beta a b x
  | app a _ ih => exact .app a ih
  | erase t a => exact .erase t a
  | unfold hbody => exact .unfold (hle.unfold hbody)
  | select hc harm hlen => exact .select (hle.ctor hc) harm hlen
  | scrut as _ ih => exact .scrut as ih

lemma HeadReduces.mono (hle : R.Le R') (h : HeadReduces R t u) :
    HeadReduces R' t u := h.lift id fun _ _ hstep => hstep.mono hle

/-! ### Steps towards a rigid term -/

/-- Steps towards a rigid term go through everything that the term reduces to. -/
lemma HeadReduces.to_rigid (hu : HeadReduces R t u) (hv : HeadReduces R t v)
    (hrigid : v.Rigid R) : HeadReduces R u v := by
  induction hu using Relation.ReflTransGen.head_induction_on with
  | refl => exact hv
  | head hstep _ ih =>
    -- Steps are unique, so both runs begin with the same one.
    rcases Relation.ReflTransGen.cases_head hv with rfl | ⟨w, hw, hrest⟩
    · exact (hrigid.not_headStep hstep).elim
    · rw [← hstep.deterministic hw] at hrest
      exact ih hrest

lemma HeadReduces.eq_of_rigid (h : HeadReduces R t u) (ht : t.Rigid R) : t = u := by
  rcases Relation.ReflTransGen.cases_head h with rfl | ⟨w, hw, -⟩
  · rfl
  · exact (ht.not_headStep hw).elim

lemma Rules.ctor_rigid (hc : R.ctor c = some k) (args : List Nameless) :
    ((global c).apps args).Rigid R :=
  Rigid.apps (f := .global c) (R.rigid hc) args

lemma HeadReduces.ctor_unique (hc : R.ctor c = some k) (hc' : R.ctor c' = some k')
    (h : HeadReduces R t ((global c).apps args)) (h' : HeadReduces R t ((global c').apps args')) :
    c = c' ∧ args = args' :=
  global_apps_inj (h.unique (R.ctor_rigid hc args) h' (R.ctor_rigid hc' args'))

lemma HeadReduces.ctor_ne_free {v : Var} (hc : R.ctor c = some k)
    (h : HeadReduces R t ((global c).apps args)) (hv : HeadReduces R t (.free v)) : False := by
  have heq := h.unique (R.ctor_rigid hc args) hv trivial
  rcases eq_nil_or_concat args with rfl | ⟨args, a, rfl⟩
  · cases heq
  · rw [concat_eq_append, apps_concat] at heq
    cases heq

lemma case_apps_not_rigid (t as : Nameless) (args : List Nameless) :
    ¬ ((Nameless.case t as).apps args).Rigid R := by
  induction args using List.reverseRecOn with
  | nil => exact id
  | append_singleton args a ih =>
    rw [apps_concat]
    exact ih

/-- A step of an applied split is a step of the split. -/
lemma HeadStep.case_apps (h : HeadStep R ((Nameless.case t as).apps args) u) :
    ∃ u', HeadStep R (.case t as) u' ∧ u = u'.apps args := by
  induction args using List.reverseRecOn generalizing u with
  | nil => exact ⟨u, h, rfl⟩
  | append_singleton args a ih =>
    rw [apps_concat] at h
    generalize hf : (Nameless.case t as).apps args = f at h
    cases h with
    | beta dom body x =>
      -- What is applied is a case split or an application of one, not a function.
      rcases eq_nil_or_concat args with rfl | ⟨args, b, rfl⟩
      · cases hf
      · rw [concat_eq_append, apps_concat] at hf
        cases hf
    | @app f f' a hstep =>
      subst hf
      obtain ⟨u', hu', rfl⟩ := ih hstep
      exact ⟨u', hu', (apps_concat _ _ _).symm⟩

/-- A case split that reduces to something rigid has come to a constructor with an arm. -/
lemma HeadReduces.case_apps (h : HeadReduces R ((Nameless.case t as).apps args) v)
    (hv : v.Rigid R) :
    ∃ c name p k fields body, HeadReduces R t ((global c).apps fields) ∧
      R.ctor c = some (name, p) ∧ as.arm? name = some (k, body) ∧ fields.length = p + k := by
  generalize hx : (Nameless.case t as).apps args = x at h
  induction h using Relation.ReflTransGen.head_induction_on generalizing t with
  | refl => exact (case_apps_not_rigid t as args (hx ▸ hv)).elim
  | head hstep _ ih =>
    subst hx
    obtain ⟨u', hcase, rfl⟩ := hstep.case_apps
    generalize hy : Nameless.case t as = y at hcase
    cases hcase with
    | @select c name p k fields as body hc harm hlen =>
      obtain ⟨rfl, rfl⟩ := Nameless.case.inj hy
      exact ⟨c, name, p, k, fields, body, .refl, hc, harm, hlen⟩
    | @scrut t t' as hscrut =>
      obtain ⟨rfl, rfl⟩ := Nameless.case.inj hy
      obtain ⟨c, name, p, k, fields, body, hred, hrest⟩ := ih rfl
      exact ⟨c, name, p, k, fields, body, .head hscrut hred, hrest⟩
    | _ => cases hy

end Nameless

/-! ### Terms of constructor form -/

lemma Term.eq_apps_of_nameless {t : Term} (h : t.nameless [] = (Nameless.global c).apps args) :
    ∃ ts, t = (global c).apps ts ∧ ts.map (nameless []) = args := by
  induction args using List.reverseRecOn generalizing t with
  | nil =>
    refine ⟨[], ?_, rfl⟩
    cases t with
    | global name => exact congrArg global (Nameless.global.inj h)
    | var v => cases h
    | _ => simp [nameless, Nameless.apps] at h
  | append_singleton args a ih =>
    rw [Nameless.apps_concat] at h
    cases t with
    | app f b =>
      obtain ⟨hf, hb⟩ := Nameless.app.inj h
      obtain ⟨ts, rfl, rfl⟩ := ih hf
      exact ⟨ts ++ [b], (apps_concat _ _ _).symm, by simp [← hb]⟩
    | var v => cases h
    | _ => simp [nameless] at h

lemma Branches.find?_of_arm? {bs : Branches} {k : Nat}
    (h : (bs.nameless stack).arm? name = some (k, body)) :
    ∃ branch, bs.find? name = some branch ∧ branch.fields.length = k := by
  match bs with
  | .nil => simp [Branches.nameless, Nameless.arm?] at h
  | .cons ctor fields body rest =>
    simp only [Branches.nameless, Nameless.arm?] at h
    rw [find?_cons]
    split at h
    · next hc => exact ⟨⟨ctor, fields, body⟩, if_pos hc, congrArg Prod.fst (some.inj h)⟩
    · next hc =>
        rw [if_neg hc]
        exact find?_of_arm? h

namespace Env

variable {env : Env} (hclosed : env.Closed)

lemma ctor?_of_rules (h : (env.rules hclosed).ctor c = some (name, p)) :
    ∃ ctor, env.ctor? c = some ctor ∧ ctor.name = name ∧ ctor.numParams = p := by
  obtain ⟨ctor, hctor, heq⟩ := map_eq_some_iff.1 h
  obtain ⟨hname, hp⟩ := Prod.mk.inj heq
  exact ⟨ctor, hctor, hname, hp⟩

lemma matchBranch?_of_arm? {k : Nat} {ts : List Term} {branches : Branches}
    (hc : (env.rules hclosed).ctor c = some (name, p))
    (harm : (branches.nameless []).arm? name = some (k, body)) (hlen : ts.length = p + k) :
    env.matchBranch? ((global c).apps ts) branches ≠ none := by
  obtain ⟨ctor, hctor, rfl, rfl⟩ := ctor?_of_rules hclosed hc
  obtain ⟨branch, hbranch, hfields⟩ := Branches.find?_of_arm? harm
  have hspine : env.ctorSpine? ((global c).apps ts) = some (ctor, ts) := by
    rw [ctorSpine?, globalSpine?_apps]
    simp [hctor]
  have hfits : ctor.numParams ≤ ts.length ∧
      (ts.drop ctor.numParams).length = branch.fields.length := by
    rw [length_drop, hfields]
    omega
  simp only [matchBranch?, hspine, hbranch, bind_eq_bind, bind_some, if_pos hfits]
  exact some_ne_none _

lemma isStuck_apps (c : Name) (ts : List Term) : isStuck ((global c).apps ts) = false := by
  rw [isStuck, spine_apps]

/-- What a run returns takes no further steps to a constructor form. -/
lemma Whnf.ctor {head u : Term} {args : List Term} (h : env.Whnf head args n u m)
    (hS : S.Behind n) (hhead : head.Over S) (hargs : ∀ a ∈ args, a.Over S)
    (hR : env.Agrees (env.rules hclosed) S) (hc : (env.rules hclosed).ctor c = some k)
    (hu : Nameless.HeadReduces (env.rules hclosed) (u.nameless []) ((Nameless.global c).apps ts)) :
    u.nameless [] = (Nameless.global c).apps ts := by
  induction h generalizing c k ts with
  | erase _ ih => exact ih hS hhead.1 hargs hc hu
  | app _ ih => exact ih hS hhead.1 (forall_mem_cons.2 ⟨hhead.2, hargs⟩) hc hu
  | @beta v dom body arg u args n m _ ih =>
    obtain ⟨harg, hargs⟩ := forall_mem_cons.1 hargs
    have hstep : Reduct (env.rules hclosed) S (.app (.lam v dom body) arg) n _ _ :=
      Reduct.beta hS hhead.2 harg
    exact ih (hS.mono hstep.next) hstep.reach hargs hc hu
  | select hscrut hmatch _ _ ih =>
    have hscrut' := hscrut.reduct hR hS hhead.2.1 (forall_mem_nil _)
    have hstep := Reduct.select hR (hS.mono hscrut'.next) hscrut'.reach hhead.2.2 hmatch
    exact ih (hS.mono (hscrut'.next.trans hstep.next)) hstep.reach hargs hc hu
  | @stuck scrut w branches n l args hscrut hmatch ih =>
    -- The scrutinee would have come to a constructor form with an arm.
    rw [nameless_apps] at hu
    obtain ⟨c', name, p, k', fields, body, hred, hc', harm, hlen⟩ :=
      Nameless.HeadReduces.case_apps hu ((env.rules hclosed).ctor_rigid hc ts)
    have hsteps := (hscrut.reduct hR hS hhead.2.1 (forall_mem_nil _)).steps
    have hfound := ih hS hhead.2.1 (forall_mem_nil _) hc'
      (hsteps.to_rigid hred ((env.rules hclosed).ctor_rigid hc' fields))
    obtain ⟨us, rfl, rfl⟩ := eq_apps_of_nameless hfound
    rw [length_map] at hlen
    exact (matchBranch?_of_arm? hclosed hc' harm hlen hmatch).elim
  | unfold hbody _ _ ih =>
    obtain ⟨-, hover⟩ := hR.unfold hhead hbody
    exact ih hS (hover.mono S.noVars_le) hargs hc hu
  | @fold g body w args n m hbody hrun hstuck ih =>
    -- The body would have come to the constructor form, which is not stuck.
    obtain ⟨hrule, hover⟩ := hR.unfold hhead hbody
    have hover := hover.mono S.noVars_le
    have hsteps := (hrun.reduct hR hS hover hargs).steps
    rw [nameless_apps] at hu
    have hunfold : Nameless.HeadReduces (env.rules hclosed)
        ((Nameless.global g).apps (args.map (nameless [])))
        ((body.nameless []).apps (args.map (nameless []))) :=
      Nameless.HeadReduces.apps (.single (.unfold hrule)) _
    have hrest := hunfold.to_rigid hu ((env.rules hclosed).ctor_rigid hc ts)
    rw [← nameless_apps] at hrest
    have hfound := ih hS hover hargs hc
      (hsteps.to_rigid hrest ((env.rules hclosed).ctor_rigid hc ts))
    obtain ⟨us, rfl, -⟩ := eq_apps_of_nameless hfound
    rw [isStuck_apps] at hstuck
    cases hstuck
  | @rigid g args n hg =>
    refine hu.eq_of_rigid ?_
    rw [nameless_apps]
    refine Nameless.Rigid.apps (f := .global g) ?_ _
    change (env.sig.unfoldable? env.unfold g).map _ = none
    rw [hg, map_none]
  | literal v dom body n =>
    rcases Relation.ReflTransGen.cases_head hu with heq | ⟨w, hw, -⟩
    · exact heq
    · cases hw
  | @inert head args n hinert =>
    refine hu.eq_of_rigid ?_
    rw [nameless_apps]
    refine Nameless.Rigid.apps (f := head.nameless []) ?_ _
    cases head with
    | univ | pi | absurd | var => trivial
    | _ => cases hinert

lemma whnf_ctor {t u : Term} (ht : t.Over (.below n)) (h : Eval.Returns (env.whnf t) n u m)
    (hc : (env.rules hclosed).ctor c = some k)
    (hred : Nameless.HeadReduces (env.rules hclosed) (t.nameless [])
      ((Nameless.global c).apps ts)) :
    u.nameless [] = (Nameless.global c).apps ts := by
  have hR := agrees_rules hclosed fun x => x.id < n
  have hS : Reach.Behind { vars := fun x : Var => x.id < n } n := fun _ hx => hx
  have hsteps := (whnf_reduct hR hS ht h).steps
  exact (Whnf.of_whnf h).ctor hclosed hS ht (forall_mem_nil _) hR hc
    (hsteps.to_rigid hred ((env.rules hclosed).ctor_rigid hc ts))

end Env
end Clausal
