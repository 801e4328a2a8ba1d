import Clausal.Proofs.Conversion
import Clausal.Proofs.Unification

/-!
# Conflicts

If unification refutes equations, then either a clash of constructors follows from
them, and they have no instance; or it follows that a variable equals a constructor
form in which it occurs.  Nothing rules out infinite values, as functions need not
terminate; and an occurrence that computation discards says nothing about the value.
-/

namespace Clausal

open Assignment List Option Relation Subst Term Unify

variable {t : Term} {g : Stage} {σ : Subst}

namespace Nameless

/-- An argument of a rigid global that the second term equals. -/
def Part (R : Rules) (a b : Nameless) : Prop :=
  ∃ g args, R.unfold g = none ∧ Equal R b ((global g).apps args) ∧ a ∈ args

/-- Taking parts again and again comes to an end. -/
def Founded (R : Rules) (t : Nameless) : Prop := Acc (Part R) t

lemma Part.of_equal {c : Nameless} (h : Part R a b) (hbc : Equal R b c) : Part R a c := by
  obtain ⟨g, args, hg, hb, ha⟩ := h
  exact ⟨g, args, hg, hbc.symm.trans hb, ha⟩

lemma not_founded_of_cycle {t : Nameless} (h : TransGen (Part R) t t) :
    ¬ Founded R t := by
  intro hfounded
  have hacc : Acc (TransGen (Part R)) t := hfounded.transGen
  induction hacc with
  | intro t _ ih => exact ih t h h hfounded

end Nameless

open Nameless (Equal Part Founded)

/-! ### First-order terms -/

/-- Variables, and globals that may not be unfolded applied to such terms. -/
def Term.FirstOrder (env : Env) : Term → Prop
  | .var _ => True
  | .global g => env.sig.unfoldable? env.unfold g = none
  | .app f a => f.var? = none ∧ f.FirstOrder env ∧ a.FirstOrder env
  | _ => False

/-- A variable occurs as an argument, below globals that may not be unfolded. -/
inductive Term.Exposes (env : Env) (v : Var) : Term → Prop
  | here {g : Name} {args : List Term} : env.sig.unfoldable? env.unfold g = none →
      .var v ∈ args → Exposes env v ((global g).apps args)
  | inside {g : Name} {args : List Term} {a : Term} : env.sig.unfoldable? env.unfold g = none →
      a ∈ args → Exposes env v a → Exposes env v ((global g).apps args)

namespace Term.FirstOrder

variable {env : Env}

lemma spine : {t : Term} → t.FirstOrder env → t.var? = none → ∃ g args,
    t = (global g).apps args ∧ env.sig.unfoldable? env.unfold g = none ∧
    (∀ a ∈ args, a.FirstOrder env) ∧ ∀ v, t.occurs v = true → ∃ a ∈ args, a.occurs v = true
  | .global g, h, _ => ⟨g, [], rfl, h, by simp, by simp [occurs]⟩
  | .app f a, h, _ => by
    obtain ⟨hf, hfo, ha⟩ := h
    obtain ⟨g, args, rfl, hg, hargs, hoccurs⟩ := spine hfo hf
    refine ⟨g, args ++ [a], (apps_concat _ _ _).symm, hg, ?_, fun v hv => ?_⟩
    · intro b hb
      rcases mem_append.1 hb with hb | hb
      · exact hargs b hb
      · exact mem_singleton.1 hb ▸ ha
    · rcases Bool.or_eq_true_iff.1 hv with hv | hv
      · obtain ⟨b, hb, hbv⟩ := hoccurs v hv
        exact ⟨b, mem_append_left _ hb, hbv⟩
      · exact ⟨a, by simp, hv⟩
  | .var _, _, ht => nomatch ht

lemma sizeOf_arg_lt {g : Name} (h : a ∈ args) :
    sizeOf a < sizeOf ((global g).apps args) := by
  induction args using List.reverseRecOn with
  | nil => cases h
  | append_singleton args b ih =>
    rw [apps_concat, app.sizeOf_spec]
    rcases mem_append.1 h with h | h
    · have := ih h
      omega
    · rw [mem_singleton.1 h]
      omega

lemma exposes {t : Term} (h : t.FirstOrder env) (ht : t.var? = none) (hv : t.occurs v = true) :
    t.Exposes env v := by
  obtain ⟨g, args, rfl, hg, hargs, hoccurs⟩ := h.spine ht
  obtain ⟨a, ha, hav⟩ := hoccurs v hv
  cases hvar : a.var? with
  | some w =>
    cases a <;> simp [var?] at hvar
    simp only [occurs, beq_iff_eq] at hav
    exact .here hg (hav ▸ ha)
  | none => exact .inside hg ha (exposes (hargs a ha) hvar hav)
termination_by sizeOf t
decreasing_by
  subst_vars
  exact sizeOf_arg_lt ha

lemma apps_iff {g : Name} : ((global g).apps args).FirstOrder env ↔
    env.sig.unfoldable? env.unfold g = none ∧ ∀ a ∈ args, a.FirstOrder env := by
  induction args using List.reverseRecOn with
  | nil => simp [apps, FirstOrder]
  | append_singleton args a ih =>
    have hvar : ((global g).apps args).var? = none := by
      rcases eq_nil_or_concat args with rfl | ⟨args, b, rfl⟩
      · rfl
      · rw [concat_eq_append, apps_concat]
        rfl
    rw [apps_concat, FirstOrder, ih]
    simp [hvar, or_imp, forall_and, and_assoc]

lemma whnf (h : t.FirstOrder env) (hrun : Eval.Returns (env.whnf t) n u m) : u = t := by
  have hwhnf := Env.Whnf.of_whnf hrun
  cases hvar : t.var? with
  | some v =>
    cases t <;> simp [var?] at hvar
    cases hwhnf with
    | inert => rfl
  | none =>
    obtain ⟨g, args, rfl, hg, -, -⟩ := h.spine hvar
    exact (hwhnf.eq_of_rigid hg).1

lemma assign {σ : Assignment} (hσ : ∀ x, (σ.image x).FirstOrder env) (n : Nat) : {t : Term} →
    t.FirstOrder env → ((t.assign σ).value n).FirstOrder env ∧
    (t.var? = none → ((t.assign σ).value n).var? = none)
  | .var v, _ => ⟨hσ v, fun h => by simp [var?] at h⟩
  | .global g, h => ⟨h, fun _ => rfl⟩
  | .app f a, h => by
    obtain ⟨hf, hhead⟩ := assign hσ n h.2.1
    obtain ⟨ha, -⟩ := assign hσ ((f.assign σ).next n) h.2.2
    exact ⟨⟨hhead h.1, hf, ha⟩, fun _ => rfl⟩

lemma apply (hσ : ∀ ⦃x : Var⦄ ⦃t : Term⦄, σ.get? x = some t → t.FirstOrder env)
    (h : t.FirstOrder env) (n : Nat) : ((σ.apply t).value n).FirstOrder env := by
  by_cases he : σ.isEmpty = true
  · rw [apply_of_isEmpty he]
    exact h
  · rw [apply_of_not_isEmpty he]
    refine (assign (fun x => ?_) n h).1
    cases hget : σ.entries.get? x with
    | none =>
      rw [image_eq_var hget]
      trivial
    | some t =>
      rw [image_eq hget]
      exact hσ hget

end Term.FirstOrder

/-! ### What follows from equations -/

namespace Nameless

/-- What follows from equations by the steps of unification: sides are reduced, variables
are replaced by what they equal, and a constructor is taken off both sides.  Reduction
is never undone, so what follows is made of what stands in the equations. -/
inductive Follows (R : Rules) (E : Nameless → Nameless → Prop) : Nameless → Nameless → Prop
  | given {t u : Nameless} : E t u → Follows R E t u
  | symm {t u : Nameless} : Follows R E t u → Follows R E u t
  | reduce {t t' u u' : Nameless} : Follows R E t u → HeadReduces R t t' → HeadReduces R u u' →
      Follows R E t' u'
  | replace {t u : Nameless} (s : Filling) : s.bound = .bound →
      (∀ x, s.free x ≠ .free x → Follows R E (.free x) (s.free x)) → Follows R E t u →
      Follows R E (t.fill s) (u.fill s)
  | arg {c : Name} {k : Name × Nat} {args args' : List Nameless} {a b : Nameless} :
      R.ctor c = some k → Follows R E ((global c).apps args) ((global c).apps args') →
      (a, b) ∈ args.zip args' → Follows R E a b

/-- An instance of the equations is one of all that follows. -/
lemma Follows.equal {E : Nameless → Nameless → Prop} {F : Filling} {t u : Nameless}
    (h : Follows R E t u)
    (hE : ∀ t u, E t u → Equal R (t.fill F) (u.fill F)) : Equal R (t.fill F) (u.fill F) := by
  induction h with
  | given h => exact hE _ _ h
  | symm _ ih => exact ih.symm
  | reduce _ ht hu ih => exact ((ht.fill F).equal.symm.trans ih).trans (hu.fill F).equal
  | @replace t u s hbound _ _ ihs ih =>
    have hfill (t : Nameless) : Equal R ((t.fill s).fill F) (t.fill F) := by
      rw [fill_fill]
      refine Equal.fill_congr t (fun x => ?_) fun i => ?_
      · by_cases hx : s.free x = .free x
        · change Equal R ((s.free x).fill F) _
          rw [hx]
          exact .refl _
        · exact (ihs x hx).symm
      · change Equal R ((s.bound i).fill F) _
        rw [hbound]
        exact .refl _
    exact ((hfill t).trans ih).trans (hfill u).symm
  | arg hc _ hmem ih =>
    have hrigid := R.rigid hc
    rw [fill_apps, fill_apps] at ih
    obtain ⟨-, hargs⟩ := Equal.spine_inj hrigid hrigid ih
    rw [forall₂_map_left_iff, forall₂_map_right_iff] at hargs
    exact forall₂_zip hargs hmem

end Nameless

open Nameless (Follows)

/-- The sides of equations, as forms. -/
def Constraint.Listed (equations : List Constraint) (t u : Nameless) : Prop :=
  ∃ e ∈ equations, t = e.1.nameless [] ∧ u = e.2.nameless []

namespace Unify

variable {env : Env} {R : Nameless.Rules} {S : Reach} {E : Nameless → Nameless → Prop}

/-- The equations left, under the solutions, follow, and so do the solutions. -/
structure Stage.Follows (R : Nameless.Rules) (E : Nameless → Nameless → Prop) (g : Stage) :
    Prop where
  queue : ∀ e ∈ g.queue, Nameless.Follows R E ((e.1.nameless []).fill g.state.subst.filling)
    ((e.2.nameless []).fill g.state.subst.filling)
  subst : ∀ x, g.state.subst.filling.free x ≠ .free x →
    Nameless.Follows R E (.free x) (g.state.subst.filling.free x)

variable {e : Constraint}

lemma Stage.Follows.facing (hR : env.Agrees R S) (hg : g.All S.Bounds) (h : g.Follows R E)
    (he : e ∈ g.queue) (hface : Facing env g.state.subst e g.next lhs rhs m) :
    Nameless.Follows R E (lhs.nameless []) (rhs.nameless []) := by
  obtain ⟨hleft, hright⟩ := hface.reduces hR hg.subst (hg.queue e he) .id
  simp only [Nameless.fill_id] at hleft hright
  exact (h.queue e he).reduce hleft hright

/-- Both sides are applications of constructors of the rules. -/
lemma Constructed.forms (hR : env.Agrees R S) (h : Constructed env lhs rhs c d args args')
    (hlhs : lhs.Over S) (hrhs : rhs.Over S) : ∃ f g, lhs = (global f).apps args ∧
      rhs = (global g).apps args' ∧ (R.ctor f).isSome ∧ (R.ctor g).isSome := by
  obtain ⟨f, rfl, hc⟩ := Env.ctorSpine?_eq_some h.left
  obtain ⟨g, rfl, hd⟩ := Env.ctorSpine?_eq_some h.right
  refine ⟨f, g, rfl, rfl, ?_, ?_⟩
  · rw [hR.ctor (over_apps.1 hlhs).1 hc, isSome_some]
  · rw [hR.ctor (over_apps.1 hrhs).1 hd, isSome_some]

lemma Solvable.follows (h : Solvable Γ lhs rhs v t)
    (hfollows : Nameless.Follows R E (lhs.nameless []) (rhs.nameless [])) :
    Nameless.Follows R E (.free v) (t.nameless []) := by
  obtain ⟨-, ⟨rfl, rfl⟩ | ⟨rfl, rfl⟩⟩ := h
  · exact hfollows
  · exact hfollows.symm

/-- One move: what it asks for follows from the equation that it takes. -/
lemma Move.follows (hR : env.Agrees R S) (hg : g.All S.Bounds) (hwithin : g.Within Γ)
    (h : Move env g g') (hfollows : g.Follows R E) : g'.Follows R E := by
  have hqueue : ∀ e ∈ g.queue.tail, Nameless.Follows R E
      ((e.1.nameless []).fill g.state.subst.filling)
      ((e.2.nameless []).fill g.state.subst.filling) :=
    fun e he => hfollows.queue e (mem_of_mem_tail he)
  cases h with
  | drop => exact ⟨hqueue, hfollows.subst⟩
  | parts queue hface hd =>
    have hsides := hfollows.facing hR hg mem_cons_self hface
    obtain ⟨hlhs, hrhs⟩ := hface.all (hR.keeps.mono (Nat.zero_le _)) hg.subst
      (hg.queue _ mem_cons_self)
    cases (demand_asks hd).2 with
    | @parts _ _ args args' _ hctors hhead _ =>
      obtain ⟨f, _, rfl, rfl, hf, -⟩ := hctors.forms (hR.upTo _) hlhs hrhs
      rw [spine_apps, spine_apps] at hhead
      obtain rfl := global.inj hhead
      obtain ⟨k, hk⟩ := isSome_iff_exists.1 hf
      rw [nameless_apps, nameless_apps] at hsides
      refine ⟨forall_mem_append.2 ⟨fun e he => ?_, hqueue⟩, hfollows.subst⟩
      have hpair : (e.1.nameless [], e.2.nameless []) ∈
          (args.map (nameless [])).zip (args'.map (nameless [])) := by
        rw [zip_map]
        exact mem_map_of_mem he
      exact .replace _ rfl hfollows.subst (.arg hk hsides hpair)
  | @solve state e queue lhs rhs t v state' n k m hface hd _ hstate =>
    obtain ⟨hm, hsolve⟩ := demand_solve hd
    obtain ⟨hlhs, hrhs⟩ := hface.all (hR.keeps.mono (Nat.zero_le _)) hg.subst
      (hg.queue _ mem_cons_self)
    have hv := hsolve.follows (hfollows.facing hR hg mem_cons_self hface)
    have ht := (hsolve.value hlhs hrhs).mono (Reach.upTo_le hm)
    have hunsolved := hwithin.unsolved v hsolve.1
    have hnew := (solved_of_solve hstate).filling
      (hg.subst.mono S.hereditary (hface.next.trans hm)) ht hunsolved
    have hother {x : Var} (hx : v ≠ x) : (Subst.single v t).filling.free x = .free x := by
      simp [Subst.filling, image_single, hx, nameless, Var.locate]
    have hsingle : ∀ x, (Subst.single v t).filling.free x ≠ .free x →
        Nameless.Follows R E (.free x) ((Subst.single v t).filling.free x) := by
      intro x hx
      by_cases hvx : v = x
      · subst hvx
        simpa [Subst.filling, image_single] using hv
      · exact (hx (hother hvx)).elim
    refine ⟨fun e he => ?_, fun x hx => ?_⟩
    · change Nameless.Follows R E ((e.1.nameless []).fill state'.subst.filling) _
      rw [hnew, ← Nameless.fill_fill, ← Nameless.fill_fill]
      exact .replace _ rfl hsingle (hqueue e he)
    · change state'.subst.filling.free x ≠ _ at hx
      change Nameless.Follows R E _ (state'.subst.filling.free x)
      rw [hnew] at hx ⊢
      change (state.subst.filling.free x).fill _ ≠ _ at hx
      change Nameless.Follows R E _ ((state.subst.filling.free x).fill _)
      by_cases hold : state.subst.filling.free x = .free x
      · rw [hold] at hx ⊢
        exact hsingle x hx
      · have hvx : v ≠ x := by
          rintro rfl
          refine hold ?_
          change (state.subst.image v).nameless [] = _
          rw [Subst.image, image_eq_var hunsolved]
          rfl
        have hfill := Nameless.Follows.replace _ rfl hsingle (hfollows.subst x hold)
        rwa [Nameless.fill, hother hvx] at hfill

/-- The same for a run, up to the equation at which it halts. -/
lemma moves_follows (hR : env.Agrees R S) (hg : g.All S.Bounds) (hwithin : g.Within Γ)
    (h : ReflTransGen (Move env) g g') (hfollows : g.Follows R E) : g'.Follows R E := by
  induction h with
  | refl => exact hfollows
  | tail hmoves hmove ih =>
    exact hmove.follows hR (moves_all (hR.keeps.mono (Nat.zero_le _)) hg hmoves).2
      (moves_within hwithin hmoves) ih

/-- Equations and solutions are first-order. -/
structure Stage.FirstOrder (env : Env) (g : Stage) : Prop where
  queue : ∀ e ∈ g.queue, e.1.FirstOrder env ∧ e.2.FirstOrder env
  subst : ∀ ⦃x : Var⦄ ⦃t : Term⦄, g.state.subst.get? x = some t → t.FirstOrder env

lemma Facing.firstOrder (hσ : ∀ ⦃x : Var⦄ ⦃t : Term⦄, σ.get? x = some t → t.FirstOrder env)
    (he : e.1.FirstOrder env ∧ e.2.FirstOrder env) (h : Facing env σ e n lhs rhs m) :
    lhs.FirstOrder env ∧ rhs.FirstOrder env := by
  obtain ⟨k, hlhs, hrhs⟩ := h
  have hleft := he.1.apply hσ n
  have hright := he.2.apply hσ k
  rw [hleft.whnf hlhs, hright.whnf hrhs]
  exact ⟨hleft, hright⟩

lemma Move.firstOrder (hg : g.FirstOrder env) (h : Move env g g') : g'.FirstOrder env := by
  have hqueue : ∀ e ∈ g.queue.tail, e.1.FirstOrder env ∧ e.2.FirstOrder env :=
    fun e he => hg.queue e (mem_of_mem_tail he)
  cases h with
  | drop => exact ⟨hqueue, hg.subst⟩
  | parts queue hface hd =>
    obtain ⟨hm, _, _, _, _, hctors, rfl⟩ := demand_parts hd
    obtain ⟨hlhs, hrhs⟩ := hface.firstOrder hg.subst (hg.queue _ mem_cons_self)
    have hparts := hctors.all (fun _ _ h => (FirstOrder.apps_iff.1 h).2) hlhs hrhs
    exact ⟨forall_mem_append.2 ⟨hparts, hqueue⟩, hg.subst⟩
  | @solve state e queue lhs rhs t v state' n k m hface hd _ hstate =>
    obtain ⟨hm, hsolve⟩ := demand_solve hd
    obtain ⟨hlhs, hrhs⟩ := hface.firstOrder hg.subst (hg.queue _ mem_cons_self)
    have ht := hsolve.value hlhs hrhs
    refine ⟨hqueue, fun x u hx => ?_⟩
    rcases (solved_of_solve hstate).values x with
      ⟨-, hx'⟩ | ⟨-, -, hx'⟩ | ⟨-, a, b, ha, hx', i, -, -, rfl⟩
    · exact some.inj (hx'.symm.trans hx) ▸ ht
    · cases hx'.symm.trans hx
    · cases hx'.symm.trans hx
      exact (hg.subst ha).apply (fun y w hy => eq_of_get?_single hy ▸ ht) i

lemma moves_firstOrder (hg : g.FirstOrder env) (h : ReflTransGen (Move env) g g') :
    g'.FirstOrder env := by
  induction h with
  | refl => exact hg
  | tail _ hmove ih => exact hmove.firstOrder ih

end Unify

/-! ### Cycles -/

/-- By what follows from the equations, a variable equals a constructor form in which
it occurs. -/
structure Cycle (env : Env) (R : Nameless.Rules) (equations : List Constraint) (v : Var)
    (t : Term) : Prop where
  ctor : (env.ctorSpine? t).isSome = true
  occurs : t.occurs v = true
  follows : Follows R (Constraint.Listed equations) (.free v) (t.nameless [])

/-- An instance makes the sides of every equation equal. -/
def Filling.Satisfies (R : Nameless.Rules) (F : Filling) (equations : List Constraint) : Prop :=
  ∀ e ∈ equations, Equal R ((e.1.nameless []).fill F) ((e.2.nameless []).fill F)

/-- An instance of the equations makes the sides of all that follows equal. -/
lemma Filling.Satisfies.equal {t u : Nameless} (hF : F.Satisfies R equations)
    (h : Follows R (Constraint.Listed equations) t u) : Equal R (t.fill F) (u.fill F) := by
  refine h.equal ?_
  rintro _ _ ⟨e, he, rfl, rfl⟩
  exact hF e he

namespace Env

variable {env : Env}

/-- The value of an exposed variable is a part of the value of the term. -/
lemma part_of_exposes (hclosed : env.Closed) (F : Filling) (h : t.Exposes env v) :
    TransGen (Part (env.rules hclosed)) (F.free v) ((t.nameless []).fill F) := by
  have hpart : ∀ {g : Name} {args : List Term} {a : Term},
      env.sig.unfoldable? env.unfold g = none → a ∈ args →
      Part (env.rules hclosed) ((a.nameless []).fill F)
        ((((global g).apps args).nameless []).fill F) := by
    intro g args a hg ha
    have hrigid : (env.rules hclosed).unfold g = none := by
      change (env.sig.unfoldable? env.unfold g).map _ = none
      rw [hg, map_none]
    rw [nameless_apps, Nameless.fill_apps]
    exact ⟨g, _, hrigid, .refl _, mem_map_of_mem (mem_map_of_mem ha)⟩
  induction h with
  | here hg hv => exact .single (hpart hg hv)
  | inside hg ha _ ih => exact ih.tail (hpart hg ha)

variable {F : Filling}

/-- A value that occurs in itself at an exposed place is infinite. -/
lemma not_founded_of_exposes (hclosed : env.Closed)
    (h : Equal (env.rules hclosed) (F.free v) ((t.nameless []).fill F))
    (ht : t.Exposes env v) : ¬ Founded (env.rules hclosed) (F.free v) := by
  obtain ⟨b, hsteps, hlast⟩ := TransGen.tail'_iff.1 (part_of_exposes hclosed F ht)
  exact Nameless.not_founded_of_cycle
    (TransGen.tail'_iff.2 ⟨b, hsteps, hlast.of_equal h.symm⟩)

/-- Equations that unification refutes have no instance, or a cycle follows from them. -/
lemma cycle_of_conflict (hR : env.Agrees R S) (hΓ : Γ.All S.Bounds n)
    (heqs : ∀ e ∈ equations, S.Bounds n e.1 ∧ S.Bounds n e.2)
    (hrun : Eval.Returns (unify env Γ equations) n (.ok .conflict) m) :
    (∀ F : Filling, ¬ F.Satisfies R equations) ∨
      ∃ v ∈ Γ.vars, ∃ t, Cycle env R equations v t ∧
        ((∀ e ∈ equations, e.1.FirstOrder env ∧ e.2.FirstOrder env) → t.Exposes env v) := by
  obtain ⟨g, hmoves, hend⟩ := run_moves (g := ⟨⟨Γ, .empty⟩, equations, n⟩) hrun
  have hstart : Stage.All S.Bounds ⟨⟨Γ, .empty⟩, equations, n⟩ :=
    ⟨heqs, All.empty, hΓ⟩
  have hkeeps := hR.keeps.mono (Nat.zero_le n)
  have hfirst : Stage.Within Γ ⟨⟨Γ, .empty⟩, equations, n⟩ :=
    ⟨fun _ hx => hx, id, fun _ _ => rfl⟩
  obtain ⟨hnext, hover⟩ := moves_all hkeeps hstart hmoves
  have hwithin := moves_within hfirst hmoves
  have hfollows := moves_follows (E := Constraint.Listed equations) hR hstart hfirst hmoves
    ⟨fun e he => by
      rw [show Subst.empty.filling = .id from rfl, Nameless.fill_id, Nameless.fill_id]
      exact .given ⟨e, he, rfl, rfl⟩, fun x hx => (hx rfl).elim⟩
  cases hend with
  | front queue hface hd hcloses =>
    have hsides := hfollows.facing hR hover mem_cons_self hface
    cases hcloses with
    | clash =>
      obtain ⟨hlhs, hrhs⟩ := hface.all (hkeeps.mono hnext) hover.subst (hover.queue _ mem_cons_self)
      cases (demand_asks hd).2 with
      | impossible hctors hne =>
        obtain ⟨f, g, rfl, rfl, hf, hg⟩ := hctors.forms (hR.upTo _) hlhs hrhs
        obtain ⟨k, hk⟩ := isSome_iff_exists.1 hf
        obtain ⟨l, hl⟩ := isSome_iff_exists.1 hg
        refine .inl fun F hF => hne ?_
        have heq := hF.equal hsides
        rw [nameless_apps, nameless_apps, Nameless.fill_apps, Nameless.fill_apps] at heq
        obtain ⟨rfl, hargs⟩ := Equal.spine_inj (R.rigid hk) (R.rigid hl) heq
        exact ⟨by rw [spine_apps, spine_apps], by simpa using hargs.length_eq⟩
    | @cycle v t hoccurs hctor =>
      have hsolve := (demand_solve hd).2
      refine .inr ⟨v, hwithin.sub v hsolve.1, t, ⟨hctor, hoccurs, hsolve.follows hsides⟩,
        fun hfo => ?_⟩
      have hnone : ∀ ⦃x : Var⦄ ⦃a : Term⦄, Subst.empty.get? x = some a → a.FirstOrder env :=
        fun _ _ hx => nomatch hx
      have hfirst := moves_firstOrder ⟨hfo, hnone⟩ hmoves
      obtain ⟨hlhs, hrhs⟩ := hface.firstOrder hfirst.subst (hfirst.queue _ mem_cons_self)
      refine (hsolve.value hlhs hrhs).exposes ?_ hoccurs
      cases t <;> simp_all [var?, ctorSpine?, globalSpine?, spine, spineOnto]

end Env

end Clausal
