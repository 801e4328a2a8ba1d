import Clausal.Proofs.AllVars
import Clausal.Proofs.Depth

/-!
# Weak-head reduction is sound, and complete at the head

The bodies of functions need not be closed here, so the argument is about terms and not
about their forms.  A second run finds the same head at rest because it is the first run
with the variables that it takes moved.
-/

namespace Clausal

open Eval List Subst Term

variable {head t u scrut : Term}

lemma Eval.Slides.later (h : Eval.Slides ⟨n, k - n⟩ φ x y) (hk : n ≤ k) (hrun : Returns x n a m) :
    Returns y k (φ a) (m + (k - n)) := by
  have hslide := h.run n (le_refl n)
  have hsum : n + (k - n) = k := by omega
  rw [show x n = some (a, m) from hrun, Option.map_some] at hslide
  exact (congrArg y hsum).symm.trans hslide

lemma Term.spine_eq_of_apps (hhead : ∀ f a, head ≠ .app f a) (args : List Term) :
    (head.apps args).spine = (head, args) := by
  rw [spine, spineOnto_apps, append_nil]
  cases head with
  | app f a => exact (hhead f a rfl).elim
  | _ => rfl

namespace Env

variable {env : Env} {n m fuel : Nat}

/-! ### Steps -/

/-- One step at the head of a term.  The result of a substitution has its binders named from any
supply that is ahead of the variables in use. -/
inductive WeakStep (env : Env) : Term → Term → Prop
  | beta {v : Var} {dom body arg : Term} {n : Nat} : (Term.app (.lam v dom body) arg).AllBelow n →
      WeakStep env (.app (.lam v dom body) arg) (((single v arg).apply body).value n)
  | select {c : Name} {ctor : Ctor} {args : List Term} {branches : Branches} {branch : Branch}
      {n : Nat} : env.sig.ctor? c = some ctor → branches.find? ctor.name = some branch →
      args.length = ctor.numParams + branch.fields.length →
      (Term.case ((Term.global c).apps args) branches).AllBelow n →
      WeakStep env (.case ((Term.global c).apps args) branches)
        (((ofPairs (branch.fields.zip (args.drop ctor.numParams))).apply branch.body).value n)
  | erase (t type : Term) : WeakStep env (.ann t type) t
  | unfold {g : Name} {f : Function} {body : Term} : env.sig.function? g = some f →
      f.transparent = true ∨ g ∈ env.unfold → f.body = some body → WeakStep env (.global g) body
  | app {f f' : Term} (a : Term) : WeakStep env f f' → WeakStep env (.app f a) (.app f' a)
  | scrut {t t' : Term} (branches : Branches) : WeakStep env t t' →
      WeakStep env (.case t branches) (.case t' branches)

/-- Any number of steps. -/
def WeakReduces (env : Env) : Term → Term → Prop := Relation.ReflTransGen env.WeakStep

lemma WeakReduces.apps (h : env.WeakReduces t u) (args : List Term) :
    env.WeakReduces (t.apps args) (u.apps args) := by
  induction args generalizing t u with
  | nil => exact h
  | cons a args ih => exact ih (h.lift (Term.app · a) fun _ _ => .app a)

lemma WeakReduces.case (h : env.WeakReduces t u) (branches : Branches) :
    env.WeakReduces (.case t branches) (.case u branches) :=
  h.lift (Term.case · branches) fun _ _ => .scrut branches

lemma WeakStep.of_unfoldable? (h : env.sig.unfoldable? env.unfold g = some body) :
    env.WeakStep (.global g) body := by
  unfold Signature.unfoldable? at h
  split at h
  next f hf =>
    split at h
    next hmay => exact .unfold hf (by simpa using hmay) h
    next => cases h
  next => cases h

lemma WeakStep.of_matchBranch? (h : env.matchBranch? scrut branches = some (σ, body))
    (hscrut : scrut.AllBelow n) (hbranches : branches.AllBelow n) :
    env.WeakStep (.case scrut branches) ((σ.apply body).value n) := by
  obtain ⟨ctor, args, branch, hspine, hbranch, hparams, hlen, rfl, rfl⟩ := matchBranch?_eq_some h
  obtain ⟨c, rfl, hctor⟩ := ctorSpine?_eq_some hspine
  refine .select hctor hbranch ?_ ⟨hscrut, hbranches⟩
  rw [length_drop] at hlen
  omega

/-- A run of weak-head reduction takes steps at the head. -/
lemma Whnf.weakReduces (hbodies : env.BodiesBelow n₀) (h : env.Whnf head args n u m) (hn : n₀ ≤ n)
    (hhead : head.AllBelow n) (hargs : ∀ a ∈ args, a.AllBelow n) :
    env.WeakReduces (head.apps args) u := by
  have hP := allBelow_hereditary
  induction h with
  | @erase t type u args n m _ ih =>
    have hstep : env.WeakReduces (.ann t type) t := .single (.erase t type)
    exact (hstep.apps args).trans (ih hn hhead.1 hargs)
  | app _ ih => exact ih hn hhead.1 (forall_mem_cons.2 ⟨hhead.2, hargs⟩)
  | @beta v dom body arg u args n m _ ih =>
    obtain ⟨harg, hargs⟩ := forall_mem_cons.1 hargs
    have hk := apply_next (.single v arg) body n
    have hstep : env.WeakReduces (.app (.lam v dom body) arg) _ := .single (.beta ⟨hhead, harg⟩)
    exact (hstep.apps args).trans (ih (by omega)
      (hP.apply (All.single harg) hhead.2.2) fun a ha => (hargs a ha).mono hk)
  | @select scrut w body u branches σ args n k m hscrut hmatch _ ihscrut ih =>
    -- The scrutinee is reduced in place before a branch is selected.
    have hw := hscrut.allBelow hbodies hn hhead.1 (forall_mem_nil _)
    have hbranches := Branches.AllBelow.mono hscrut.next hhead.2
    have hj := hscrut.next.trans (apply_next σ body k)
    have hinside : env.WeakReduces scrut w := ihscrut hn hhead.1 (forall_mem_nil _)
    have hstep : env.WeakReduces (.case scrut branches) ((σ.apply body).value k) :=
      (hinside.case branches).tail (.of_matchBranch? hmatch hw hbranches)
    exact (hstep.apps args).trans (ih (by omega)
      (matchBranch?_allBelow hmatch hw hbranches) fun a ha => (hargs a ha).mono hj)
  | @unfold g body u args n m hbody _ _ ih =>
    have hstep : env.WeakReduces (.global g) body := .single (.of_unfoldable? hbody)
    exact (hstep.apps args).trans (ih hn ((hbodies hbody).mono hn) hargs)
  | stuck | fold | rigid | literal | inert => exact .refl

/-! ### Heads at rest -/

/-- Reduction of a head with its arguments stops at once, from every supply from `m` on. -/
def RestsSpine (env : Env) (m : Nat) : Nat → Term → List Term → Prop
  | 0, _, _ => False
  | fuel + 1, head, args =>
    match head with
    | .ann _ _ | .app _ _ => False
    | .lam _ _ _ => args = []
    | .case scrut branches =>
      ∀ k ≥ m, ∃ k', Returns (env.reduceCase fuel scrut branches) k none k'
    | .global g => ∀ body, env.sig.unfoldable? env.unfold g = some body →
        ∀ k ≥ m, ∃ w k', Returns (env.whnfSpine fuel body args) k w k' ∧ isStuck w = true
    | _ => True

/-- The same for a term that is reduced as a whole. -/
def Rests (env : Env) (m : Nat) : Nat → Term → Prop
  | 0, _ => False
  | fuel + 1, t =>
    match t with
    | .ann _ _ => False
    | .app f a => env.RestsSpine m fuel (Term.app f a).spine.1 (Term.app f a).spine.2
    | .global g => env.RestsSpine m fuel (.global g) []
    | .case scrut branches =>
      ∀ k ≥ m, ∃ k', Returns (env.reduceCase fuel scrut branches) k none k'
    | _ => True

lemma RestsSpine.succ (h : env.RestsSpine m fuel head args) :
    env.RestsSpine m (fuel + 1) head args := by
  cases fuel with
  | zero => exact h.elim
  | succ fuel =>
    cases head with
    | case scrut branches =>
      intro k hk
      obtain ⟨k', hrun⟩ := h k hk
      exact ⟨k', reduceCase_succ fuel scrut branches hrun⟩
    | global g =>
      intro body hbody k hk
      obtain ⟨w, k', hrun, hstuck⟩ := h body hbody k hk
      exact ⟨w, k', whnfSpine_succ fuel body args hrun, hstuck⟩
    | _ => exact h

lemma RestsSpine.rests (h : env.RestsSpine m fuel t.spine.1 t.spine.2) :
    env.Rests m (fuel + 1) t := by
  cases t with
  | app | global => exact h
  | ann | case =>
    cases fuel with
    | zero => exact h.elim
    | succ fuel => exact h.succ
  | _ => trivial

lemma Rests.spine (h : env.Rests m fuel t) : env.RestsSpine m fuel t.spine.1 t.spine.2 := by
  cases fuel with
  | zero => exact h.elim
  | succ fuel =>
    cases t with
    | app | global => exact RestsSpine.succ h
    | lam => exact (rfl : ([] : List Term) = [])
    | ann | case => exact h
    | _ => trivial

lemma Rests.succ (h : env.Rests m fuel t) : env.Rests m (fuel + 1) t := h.spine.rests

/-! ### Results are at rest -/

/-- A case split that is stuck is stuck from every later supply. -/
lemma reduceCase_later (hbodies : env.BodiesBelow n) (hscrut : scrut.AllBelow n)
    (hbranches : branches.AllBelow n) (h : Returns (env.reduceCase fuel scrut branches) n none m)
    (k : Nat) (hk : m ≤ k) : ∃ k', Returns (env.reduceCase fuel scrut branches) k none k' := by
  have hslides := reduceCase_slides (s := ⟨n, k - n⟩) hbodies.fixed fuel scrut branches
  have hnk := le_trans (hslides.forward (le_refl n) h) hk
  rw [Slide.term_old _ hscrut, Slide.branches_old _ hbranches] at hslides
  exact ⟨_, hslides.later hnk h⟩

lemma isStuck_later (hbodies : env.BodiesBelow n) (hhead : head.AllBelow n)
    (hargs : ∀ a ∈ args, a.AllBelow n) (h : Returns (env.whnfSpine fuel head args) n w m)
    (hstuck : isStuck w = true) (k : Nat) (hk : m ≤ k) :
    ∃ w' k', Returns (env.whnfSpine fuel head args) k w' k' ∧ isStuck w' = true := by
  have hslides := whnfSpine_slides (s := ⟨n, k - n⟩) hbodies.fixed fuel head args
  have hnk := le_trans (hslides.forward (le_refl n) h) hk
  have hsame : args.map (Term.mapVars (Slide.var ⟨n, k - n⟩)) = args :=
    (map_congr_left fun a ha => Slide.term_old _ (hargs a ha)).trans (map_id _)
  rw [Slide.term_old _ hhead, hsame] at hslides
  exact ⟨_, _, hslides.later hnk h, (isStuck_slide _ w).trans hstuck⟩

lemma reduceCase_some_allBelow (hbodies : env.BodiesBelow n₀) (hn : n₀ ≤ n)
    (hscrut : scrut.AllBelow n) (hbranches : branches.AllBelow n)
    (h : Returns (env.reduceCase fuel scrut branches) n (some t) m) : n ≤ m ∧ t.AllBelow m := by
  obtain ⟨w, k, hw, ⟨σ, body, hmatch, heq, rfl⟩ | ⟨-, heq, -⟩⟩ := Whnf.of_reduceCase fuel h
  · cases heq
    refine ⟨hw.next.trans (apply_next σ body k), ?_⟩
    exact matchBranch?_allBelow hmatch (hw.allBelow hbodies hn hscrut (forall_mem_nil _))
      (hbranches.mono hw.next)
  · cases heq

/-- What reduction of a head with its arguments returns is at rest. -/
lemma whnfSpine_rests (hbodies : env.BodiesBelow n₀) (hn : n₀ ≤ n) (hhead : head.AllBelow n)
    (hargs : ∀ a ∈ args, a.AllBelow n) (h : Returns (env.whnfSpine fuel head args) n u m) :
    env.RestsSpine m fuel u.spine.1 u.spine.2 := by
  induction fuel generalizing head args n with
  | zero => simp [whnfSpine] at h
  | succ fuel ih =>
    cases head with
    | ann t type => exact (ih hn hhead.1 hargs h).succ
    | app f a =>
      have hparts : ((Term.app f a).spineOnto args).1.AllBelow n ∧
          ∀ b ∈ ((Term.app f a).spineOnto args).2, b.AllBelow n := by
        rw [← Term.allBelow_hereditary.apps, apps_spineOnto]
        exact Term.allBelow_hereditary.apps.2 ⟨hhead, hargs⟩
      exact (ih hn hparts.1 hparts.2 h).succ
    | lam v dom body =>
      cases args with
      | nil =>
        obtain ⟨rfl, rfl⟩ := returns_pure.1 h
        exact (rfl : ([] : List Term) = [])
      | cons arg args =>
        obtain ⟨harg, hargs⟩ := forall_mem_cons.1 hargs
        simp only [whnfSpine, returns_bind, returns_lift] at h
        obtain ⟨b, k, ⟨rfl, rfl⟩, h⟩ := h
        have hk := apply_next (.single v arg) body n
        have hbody := apply_allBelow (All.single (v := v) harg) hhead.2.2
        exact (ih (by omega) hbody (fun a ha => (hargs a ha).mono hk) h).succ
    | case scrut branches =>
      simp only [whnfSpine, returns_bind] at h
      obtain ⟨o, k, ho, h⟩ := h
      cases o with
      | some t =>
        obtain ⟨hk, ht⟩ := reduceCase_some_allBelow hbodies hn hhead.1 hhead.2 ho
        exact (ih (by omega) ht (fun a ha => (hargs a ha).mono hk) h).succ
      | none =>
        obtain ⟨rfl, rfl⟩ := returns_pure.1 h
        rw [spine_eq_of_apps (by simp)]
        exact reduceCase_later (hbodies.mono hn) hhead.1 hhead.2 ho
    | global g =>
      simp only [whnfSpine] at h
      split at h
      next body hbody =>
        have hover := (hbodies hbody).mono hn
        simp only [returns_bind] at h
        obtain ⟨w, k, hw, h⟩ := h
        split at h
        next hstuck =>
          obtain ⟨rfl, rfl⟩ := returns_pure.1 h
          rw [spine_eq_of_apps (by simp)]
          intro body' hbody'
          cases hbody.symm.trans hbody'
          exact isStuck_later (hbodies.mono hn) hover hargs hw hstuck
        next =>
          obtain ⟨rfl, rfl⟩ := returns_pure.1 h
          exact (ih hn hover hargs hw).succ
      next hnone =>
        obtain ⟨rfl, rfl⟩ := returns_pure.1 h
        rw [spine_eq_of_apps (by simp)]
        intro body hbody
        rw [hnone] at hbody
        cases hbody
    | _ =>
      obtain ⟨rfl, rfl⟩ := returns_pure.1 h
      rw [spine_eq_of_apps (by simp)]
      trivial

/-- What reduction returns is at rest. -/
lemma whnfWith_rests (hbodies : env.BodiesBelow n₀) (hn : n₀ ≤ n) (ht : t.AllBelow n)
    (h : Returns (env.whnfWith fuel t) n u m) : env.Rests m fuel u := by
  induction fuel generalizing t n with
  | zero => simp [whnfWith] at h
  | succ fuel ih =>
    cases t with
    | ann t type => exact (ih hn ht.1 h).succ
    | app f a =>
      have hparts : (Term.app f a).spine.1.AllBelow n ∧
          ∀ b ∈ (Term.app f a).spine.2, b.AllBelow n := by
        rw [← Term.allBelow_hereditary.apps, apps_spine]
        exact ht
      exact (whnfSpine_rests hbodies hn hparts.1 hparts.2 h).rests
    | global g => exact (whnfSpine_rests hbodies hn ht (forall_mem_nil _) h).rests
    | case scrut branches =>
      simp only [whnfWith, returns_bind] at h
      obtain ⟨o, k, ho, h⟩ := h
      cases o with
      | some t =>
        obtain ⟨hk, ht⟩ := reduceCase_some_allBelow hbodies hn ht.1 ht.2 ho
        exact (ih (by omega) ht h).succ
      | none =>
        obtain ⟨rfl, rfl⟩ := returns_pure.1 h
        exact reduceCase_later (hbodies.mono hn) ht.1 ht.2 ho
    | _ =>
      obtain ⟨rfl, rfl⟩ := returns_pure.1 h
      trivial

/-! ### What is at rest is returned -/

lemma whnfSpine_at_rest (h : env.RestsSpine m fuel head args) (hk : m ≤ k) :
    ∃ k', Returns (env.whnfSpine fuel head args) k (head.apps args) k' := by
  cases fuel with
  | zero => exact h.elim
  | succ fuel =>
    cases head with
    | ann | app => exact h.elim
    | lam v dom body =>
      obtain rfl : args = [] := h
      exact ⟨k, rfl⟩
    | case scrut branches =>
      obtain ⟨k', hcase⟩ := h k hk
      refine ⟨k', ?_⟩
      rw [whnfSpine]
      exact returns_bind.2 ⟨none, k', hcase, rfl⟩
    | global g =>
      rw [whnfSpine]
      cases hbody : env.sig.unfoldable? env.unfold g with
      | none => exact ⟨k, rfl⟩
      | some body =>
        obtain ⟨w, k', hw, hstuck⟩ := h body hbody k hk
        refine ⟨k', returns_bind.2 ⟨w, k', hw, ?_⟩⟩
        rw [if_pos hstuck]
        rfl
    | _ => exact ⟨k, rfl⟩

lemma whnfWith_at_rest (h : env.Rests m fuel t) (hk : m ≤ k) :
    ∃ k', Returns (env.whnfWith fuel t) k t k' := by
  cases fuel with
  | zero => exact h.elim
  | succ fuel =>
    cases t with
    | ann => exact h.elim
    | app f a =>
      obtain ⟨k', hrun⟩ := whnfSpine_at_rest h hk
      rw [apps_spine] at hrun
      exact ⟨k', hrun⟩
    | global g => exact whnfSpine_at_rest h hk
    | case scrut branches =>
      obtain ⟨k', hcase⟩ := h k hk
      refine ⟨k', ?_⟩
      rw [whnfWith]
      exact returns_bind.2 ⟨none, k', hcase, rfl⟩
    | _ => exact ⟨k, rfl⟩

/-! ### The main statement -/

/-- Reduction has nothing left to do at the head of a term, from every supply from `m` on. -/
structure Settled (env : Env) (m : Nat) (u : Term) : Prop where
  /-- The term is no annotation, and none is applied in it. -/
  ann : ∀ t type args, u ≠ (Term.ann t type).apps args
  /-- No literal is applied. -/
  lam : ∀ v dom body arg args, u ≠ (Term.lam v dom body).apps (arg :: args)
  /-- A case split at the head has no branch for what its scrutinee reduces to. -/
  case : ∀ scrut branches args, u = (Term.case scrut branches).apps args → ∀ k ≥ m,
    ∃ w k', Returns (env.whnf scrut) k w k' ∧ env.matchBranch? w branches = none
  /-- A function at the head that may be unfolded is stuck once it is. -/
  global : ∀ g body args, u = (Term.global g).apps args →
    env.sig.unfoldable? env.unfold g = some body → ∀ k ≥ m,
    ∃ w k', Returns (env.whnf (body.apps args)) k w k' ∧ isStuck w = true

lemma RestsSpine.settled (h : env.RestsSpine m env.fuel u.spine.1 u.spine.2) :
    env.Settled m u := by
  obtain ⟨fuel, hfuel⟩ : ∃ fuel, env.fuel = fuel + 1 := by
    cases hzero : env.fuel with
    | zero =>
      rw [hzero] at h
      exact h.elim
    | succ fuel => exact ⟨fuel, rfl⟩
  rw [hfuel] at h
  refine ⟨?_, ?_, ?_, ?_⟩
  · rintro t type args rfl
    rw [spine_eq_of_apps (by simp)] at h
    exact h
  · rintro v dom body arg args rfl
    rw [spine_eq_of_apps (by simp)] at h
    exact cons_ne_nil _ _ h
  · rintro scrut branches args rfl k hk
    rw [spine_eq_of_apps (by simp)] at h
    obtain ⟨k', hcase⟩ := h k hk
    cases fuel with
    | zero => simp [reduceCase] at hcase
    | succ fuel =>
      simp only [reduceCase, returns_bind] at hcase
      obtain ⟨w, j, hw, hcase⟩ := hcase
      refine ⟨w, j, whnfWith_mono (by omega) scrut hw, ?_⟩
      cases hmatch : env.matchBranch? w branches with
      | none => rfl
      | some found =>
        rw [hmatch] at hcase
        simp only [returns_bind, returns_lift, returns_pure] at hcase
        obtain ⟨t, i, -, hsome, -⟩ := hcase
        cases hsome
  · rintro g body args rfl hbody k hk
    rw [spine_eq_of_apps (by simp)] at h
    obtain ⟨w, k', hw, hstuck⟩ := h body hbody k hk
    have hwhole := whnfSpine_within fuel body args hw
    rw [← hfuel] at hwhole
    exact ⟨w, k', hwhole, hstuck⟩

/-- The weak-head normal form of a term is reached by steps at the head.  It has nothing left to do
there, and reduction returns it as it is. -/
theorem whnf_reaches_rest {t u : Term} (hbodies : env.BodiesBelow n) (ht : t.AllBelow n)
    (h : Returns (env.whnf t) n u m) :
    env.WeakReduces t u ∧ env.Settled m u ∧ ∀ k ≥ m, ∃ k', Returns (env.whnf u) k u k' := by
  have hrests := whnfWith_rests hbodies (by omega) ht h
  exact ⟨(Whnf.of_whnf h).weakReduces hbodies (by omega) ht (forall_mem_nil _),
    hrests.spine.settled, fun _ hk => whnfWith_at_rest hrests hk⟩

end Env

namespace WeakHead

open Predecessor (x)

def pred (t : Term) : Term := .app (.global "pred") t

def succ (t : Term) : Term := .app (.global "succ") t

/-- The predecessor of zero is a free variable. -/
def env : Env := Predecessor.env (.var x)

/-- `(pred (succ (pred (pred (succ x)))) : Nat)` -/
def nested : Term := .ann (pred (succ (pred (pred (succ (.var x)))))) (.global "Nat")

/-- One unfolding is kept and one, on what is stuck, is not. -/
theorem nested_reaches_rest :
    env.BodiesBelow 3 ∧ nested.AllBelow 3 ∧
      ∃ m, Eval.Returns (env.whnf nested) 3 (pred (pred (succ (.var x)))) m ∧
        env.WeakReduces nested (pred (pred (succ (.var x)))) ∧
        env.Settled m (pred (pred (succ (.var x)))) ∧
        ∃ m', Eval.Returns (env.whnf (pred (pred (succ (.var x))))) m
          (pred (pred (succ (.var x)))) m' := by
  have hbodies : env.BodiesBelow 3 := Env.bodiesBelow (by decide)
  have hnested : nested.AllBelow 3 := by decide
  have hrun : Eval.Returns (env.whnf nested) 3 (pred (pred (succ (.var x)))) 6 := by
    unfold Eval.Returns
    decide +kernel
  obtain ⟨hsteps, hsettled, hagain⟩ := Env.whnf_reaches_rest hbodies hnested hrun
  exact ⟨hbodies, hnested, 6, hrun, hsteps, hsettled, hagain 6 (le_refl 6)⟩

end WeakHead

end Clausal
