import Clausal.Proofs.Unification
import Mathlib.Data.List.Nodup

/-!
# What a unifier is

A unifier makes the two sides of every equation congruent, where reduction and the
pairs that conversion accepted during the run may be used below any term former and
in any instance.
-/

namespace Clausal

open Assignment Env List Reach Subst Term

variable {e : Constraint}

namespace Nameless

/-- The least congruence, closed under filling, that has the steps of weak-head
reduction and the given pairs. -/
inductive Congruent (R : Rules) (A : Nameless → Nameless → Prop) : Nameless → Nameless → Prop
  | given {t u : Nameless} : A t u → Congruent R A t u
  | step {t u : Nameless} : HeadStep R t u → Congruent R A t u
  | fill {t u : Nameless} (s : Filling) : Congruent R A t u → Congruent R A (t.fill s) (u.fill s)
  | refl (t : Nameless) : Congruent R A t t
  | symm {t u : Nameless} : Congruent R A t u → Congruent R A u t
  | trans {t u v : Nameless} : Congruent R A t u → Congruent R A u v → Congruent R A t v
  | pi {a a' b b' : Nameless} : Congruent R A a a' → Congruent R A b b' →
      Congruent R A (.pi a b) (.pi a' b')
  | lam {a a' b b' : Nameless} : Congruent R A a a' → Congruent R A b b' →
      Congruent R A (.lam a b) (.lam a' b')
  | app {f f' a a' : Nameless} : Congruent R A f f' → Congruent R A a a' →
      Congruent R A (.app f a) (.app f' a')
  | ann {t t' a a' : Nameless} : Congruent R A t t' → Congruent R A a a' →
      Congruent R A (.ann t a) (.ann t' a')
  | case {t t' as as' : Nameless} : Congruent R A t t' → Congruent R A as as' →
      Congruent R A (.case t as) (.case t' as')
  | absurd {t t' : Nameless} : Congruent R A t t' → Congruent R A (.absurd t) (.absurd t')
  | arm (c : Name) (k : Nat) {b b' r r' : Nameless} : Congruent R A b b' → Congruent R A r r' →
      Congruent R A (.arm c k b r) (.arm c k b' r')

lemma Congruent.of_headReduces (h : HeadReduces R t u) : Congruent R A t u := by
  induction h with
  | refl => exact .refl t
  | tail _ hstep ih => exact ih.trans (.step hstep)

lemma Congruent.apps (hf : Congruent R A f f') (h : List.Forall₂ (Congruent R A) args args') :
    Congruent R A (f.apps args) (f'.apps args') := by
  induction h generalizing f f' with
  | nil => exact hf
  | cons ha _ ih => exact ih (.app hf ha)

end Nameless

open Nameless (Congruent)

/-! ### Solutions as fillings -/

namespace Subst

lemma single_maps_of (hV : ∀ x, V x → x ≠ v → W x) (ht : t.Over { vars := W }) :
    (single v t).entries.Maps { vars := V } { vars := W } where
  vars x hx := by
    rw [← image, image_single]
    split
    · exact ht
    · next hne => exact hV x hx (Ne.symm hne)
  globals _ _ := trivial
  splits _ := trivial

@[simp] lemma apply_var (σ : Subst) (x : Var) (n : Nat) :
    (σ.apply (.var x)).value n = σ.image x := by
  by_cases he : σ.isEmpty = true
  · rw [apply_of_isEmpty he, image_of_isEmpty he]
    rfl
  · rw [apply_of_not_isEmpty he]
    rfl

/-- An instance that gives every variable the instance of its value. -/
def Absorbs (F : Filling) (σ : Subst) : Prop :=
  ∀ x, F.free x = ((σ.image x).nameless []).fill F

lemma Absorbs.andThen (h : Absorbs F σ) : σ.filling.andThen F = F := by
  ext x
  · exact (h x).symm
  · rfl

lemma Absorbs.fill (h : Absorbs F σ) (t : Nameless) : (t.fill σ.filling).fill F = t.fill F := by
  rw [Nameless.fill_fill, h.andThen]

end Subst

/-! ### The run -/

namespace Unify

/-- Conversion accepts the reduced sides of the front equation, neither of which
is a variable of the context. -/
def Stage.Accepts (env : Env) (g : Stage) (lhs rhs : Term) : Prop :=
  ∃ e queue k m, g.queue = e :: queue ∧ Facing env g.state.subst e g.next lhs rhs k ∧
    flexible? g.state.context lhs = none ∧ flexible? g.state.context rhs = none ∧
    Eval.Returns (env.convertible lhs rhs) k true m

/-- The pairs that conversion accepts during the run on some equations. -/
def Accepted (env : Env) (Γ : Telescope) (equations : List Constraint) (n : Nat)
    (t u : Nameless) : Prop :=
  ∃ g lhs rhs, Relation.ReflTransGen (Move env) ⟨⟨Γ, .empty⟩, equations, n⟩ g ∧
    g.Accepts env lhs rhs ∧ t = lhs.nameless [] ∧ u = rhs.nameless []

/-- An instance makes the sides of the equations left congruent, and agrees with
the solutions. -/
structure Stage.Congruent (R : Nameless.Rules) (A : Nameless → Nameless → Prop) (F : Filling)
    (g : Stage) : Prop where
  queue : ∀ e ∈ g.queue,
    Nameless.Congruent R A ((e.1.nameless []).fill F) ((e.2.nameless []).fill F)
  subst : Subst.Absorbs F g.state.subst

variable {S : Reach} {state : Unifier} {g : Stage}

lemma Facing.congruent (hR : env.Agrees R S) (hσ : σ.All S.Bounds n)
    (he : S.Bounds n e.1 ∧ S.Bounds n e.2) (h : Facing env σ e n lhs rhs m) (hF : Subst.Absorbs F σ)
    (heq : Congruent R A ((lhs.nameless []).fill F) ((rhs.nameless []).fill F)) :
    Congruent R A ((e.1.nameless []).fill F) ((e.2.nameless []).fill F) := by
  -- The instance absorbs the solutions, so putting them in first makes no difference.
  obtain ⟨hleft, hright⟩ := h.reduces hR hσ he F
  rw [hF.fill] at hleft hright
  exact ((Congruent.of_headReduces hleft).trans heq).trans (Congruent.of_headReduces hright).symm

lemma Constructed.congruent (h : Constructed env lhs rhs c d args args')
    (hhead : lhs.spine.1 = rhs.spine.1) (hlen : args.length = args'.length)
    (hargs : ∀ e ∈ args.zip args',
      Congruent R A ((e.1.nameless []).fill F) ((e.2.nameless []).fill F)) :
    Congruent R A ((lhs.nameless []).fill F) ((rhs.nameless []).fill F) := by
  obtain ⟨f, rfl, -⟩ := ctorSpine?_eq_some h.left
  obtain ⟨g, rfl, -⟩ := ctorSpine?_eq_some h.right
  obtain rfl : f = g := by simpa [spine_apps] using hhead
  rw [nameless_apps, nameless_apps, Nameless.fill_apps, Nameless.fill_apps, map_map, map_map]
  refine .apps (.refl _) ?_
  rw [forall₂_map_left_iff, forall₂_map_right_iff]
  exact forall₂_iff_zip.2 ⟨hlen, fun hmem => hargs _ hmem⟩

namespace Solved

variable {Γ : Telescope} {σ : Subst} {n m : Nat} {state : Unifier}

/-- An instance that agrees with the new solutions agrees with the old ones, and
gives the solved variable the instance of its value. -/
lemma absorbs (h : Solved Γ σ v t n state m) (hσ : σ.All S.Bounds n) (ht : S.Bounds n t)
    (hv : σ.get? v = none) (hF : Subst.Absorbs F state.subst) :
    Subst.Absorbs F σ ∧ F.free v = (t.nameless []).fill F := by
  have hvalue : F.free v = (t.nameless []).fill F := by
    have hfree := hF v
    rcases h.values v with ⟨-, hx⟩ | ⟨hne, -⟩ | ⟨hne, -⟩
    · rwa [Subst.image, image_eq hx] at hfree
    · exact (hne rfl).elim
    · exact (hne rfl).elim
  have hsingle : Subst.Absorbs F (Subst.single v t) := by
    intro x
    rw [Subst.image_single]
    split
    · next hx => exact hx ▸ hvalue
    · rfl
  refine ⟨fun x => ?_, hvalue⟩
  have hx : F.free x = (state.subst.filling.free x).fill F := hF x
  rw [h.filling hσ ht hv] at hx
  rw [hx]
  exact hsingle.fill _

end Solved

/-- If an instance makes the reduced sides of the front equation congruent, it makes
the stage so that it makes the rest. -/
lemma Stage.Congruent.cons (hR : env.Agrees R S) {queue : List Constraint}
    (hg : Stage.All S.Bounds ⟨state, e :: queue, n⟩) (hface : Facing env state.subst e n lhs rhs k)
    (hsides : Nameless.Congruent R A ((lhs.nameless []).fill F) ((rhs.nameless []).fill F))
    (hF : Stage.Congruent R A F ⟨state, queue, n⟩) :
    Stage.Congruent R A F ⟨state, e :: queue, n⟩ := by
  refine ⟨fun e' he' => ?_, hF.subst⟩
  rcases mem_cons.1 he' with rfl | he'
  · exact hface.congruent hR hg.subst (hg.queue _ mem_cons_self) hF.subst hsides
  · exact hF.queue e' he'

/-- What the moved-to stage asks of an instance gives what the stage before asks. -/
lemma Move.congruent (hR : env.Agrees R S) (hg : g.All S.Bounds)
    (hunsolved : ∀ x ∈ g.state.context.vars, g.state.subst.get? x = none)
    (hA : ∀ lhs rhs, g.Accepts env lhs rhs → A (lhs.nameless []) (rhs.nameless []))
    (h : Move env g g') (hF : g'.Congruent R A F) : g.Congruent R A F := by
  cases h with
  | @drop state e queue lhs rhs n k m hface hd =>
    refine .cons hR hg hface ?_ ⟨hF.queue, hF.subst⟩
    cases (demand_asks hd).2 with
    | same hlhs hrhs =>
      rw [hlhs, hrhs]
      exact .refl _
    | accepted hlhs hrhs hconv =>
      exact .fill F (.given (hA lhs rhs ⟨e, queue, k, m, rfl, hface, hlhs, hrhs, hconv⟩))
  | @parts state e queue lhs rhs equations n k m hface hd =>
    have hqueue : Stage.Congruent R A F ⟨state, queue, n⟩ :=
      ⟨fun e' he' => hF.queue e' (mem_append_right _ he'), hF.subst⟩
    refine .cons hR hg hface ?_ hqueue
    cases (demand_asks hd).2 with
    | parts hctors hhead hlen =>
      exact hctors.congruent hhead hlen fun e he => hF.queue e (mem_append_left _ he)
  | @solve state e queue lhs rhs t v state' n k m hface hd hfree hstate =>
    obtain ⟨hm, hsolve⟩ := demand_solve hd
    obtain ⟨hlhs, hrhs⟩ := hface.all (hR.keeps.mono (Nat.zero_le _)) hg.subst
      (hg.queue _ mem_cons_self)
    have ht := (hsolve.value hlhs hrhs).mono (upTo_le hm)
    have hσ := hg.subst.mono S.hereditary (hface.next.trans hm)
    obtain ⟨hold, hvalue⟩ := (solved_of_solve hstate).absorbs hσ ht (hunsolved v hsolve.1) hF.subst
    refine .cons hR hg hface ?_ ⟨hF.queue, hold⟩
    obtain ⟨-, ⟨rfl, rfl⟩ | ⟨rfl, rfl⟩⟩ := hsolve <;> rw [← hvalue] <;> exact .refl _

/-- What a stage makes of the variables and types of `Γ`, whose types are over `V`. -/
structure Stage.Sorts (Γ : Telescope) (V : Var → Prop) (g : Stage) : Prop where
  within : g.Within Γ
  cover : ∀ x ∈ Γ.vars, g.state.subst.get? x = none → x ∈ g.state.context.vars
  solved : ∀ x, (g.state.subst.get? x).isSome → x ∈ Γ.vars
  queue : ∀ e ∈ g.queue, e.1.Over Γ.reach ∧ e.2.Over Γ.reach
  values : ∀ ⦃x : Var⦄ ⦃t : Term⦄, g.state.subst.get? x = some t →
    t.Over (Telescope.reach g.state.context)
  types : ∀ e ∈ g.state.context,
    e.2.Over { vars := fun x => V x ∧ g.state.subst.get? x = none } ∧
      ∃ type, (e.1, type) ∈ Γ ∧
        e.2.nameless [] = (type.nameless []).fill g.state.subst.filling

namespace Stage.Sorts

variable {Γ : Telescope} {V : Var → Prop} {g : Stage}

lemma start (htypes : ∀ e ∈ Γ, e.2.Over { vars := V })
    (heqs : ∀ e ∈ equations, e.1.Over Γ.reach ∧ e.2.Over Γ.reach) (n : Nat) :
    Stage.Sorts Γ V ⟨⟨Γ, .empty⟩, equations, n⟩ where
  within := ⟨fun _ hx => hx, id, fun _ _ => rfl⟩
  cover _ hx _ := hx
  solved _ hx := by cases hx
  queue := heqs
  values _ _ hx := by cases hx
  types e he := by
    exact ⟨(htypes e he).weaken fun x hx => ⟨hx, rfl⟩, e.2, he, (Nameless.fill_id _).symm⟩

/-- The solutions lead from the variables of `Γ` to those that are left. -/
lemma maps (hg : g.Sorts Γ V) :
    g.state.subst.entries.Maps Γ.reach (Telescope.reach g.state.context) where
  vars x hx := by
    cases hget : g.state.subst.entries.get? x with
    | none =>
      rw [image_eq_var hget]
      exact hg.cover x hx hget
    | some t =>
      rw [image_eq hget]
      exact hg.values hget
  globals _ hc := hc
  splits hs := hs

end Stage.Sorts

lemma Facing.over (hclosed : env.Closed) (hW : ∀ x, W x → x.id < n)
    (hσ : σ.entries.Maps { vars := V } { vars := W })
    (he : e.1.Over { vars := V } ∧ e.2.Over { vars := V }) (h : Facing env σ e n lhs rhs m) :
    lhs.Over { vars := W } ∧ rhs.Over { vars := W } := by
  obtain ⟨k, hlhs, hrhs⟩ := h
  have hagrees := agrees_rules hclosed W
  have hbehind : Behind { vars := W } n := hW
  have hj := apply_next σ e.1 n
  have hk := hj.trans (env.whnf_forward _ hlhs)
  have hi := hk.trans (apply_next σ e.2 k)
  exact ⟨(whnf_reduct hagrees (hbehind.mono hj) (apply_over hσ n he.1) hlhs).reach,
    (whnf_reduct hagrees (hbehind.mono hi) (apply_over hσ k he.2) hrhs).reach⟩

/-- A value that does not mention the solved variable is over what is left. -/
lemma Solved.value_over (h : Solved Γ σ v t n state m) (ht : t.Over Γ.reach)
    (hfree : t.occurs v = false) : t.Over (Telescope.reach state.context) := by
  refine over_iff_occurs.2 fun x hx => h.mem_vars.2 ⟨ht.occurs hx, ?_⟩
  rintro rfl
  rw [hfree] at hx
  cases hx

lemma Solved.values_over (h : Solved Γ σ v t n state m)
    (ht : t.Over (Telescope.reach state.context))
    (hσ : ∀ ⦃x : Var⦄ ⦃u : Term⦄, σ.get? x = some u → u.Over Γ.reach) ⦃x : Var⦄ ⦃u : Term⦄
    (hx : state.subst.get? x = some u) : u.Over (Telescope.reach state.context) := by
  rcases h.values x with ⟨-, hx'⟩ | ⟨-, -, hx'⟩ | ⟨-, a, b, ha, hx', hab⟩
  · exact Option.some.inj (hx'.symm.trans hx) ▸ ht
  · cases hx'.symm.trans hx
  · cases hx'.symm.trans hx
    exact hab.over (Subst.single_maps_of (fun y hy hne => h.mem_vars.2 ⟨hy, hne⟩) ht) (hσ ha)

/-- One move; only a solved variable changes the context. -/
lemma Move.sorts (hclosed : env.Closed) (hV : ∀ x ∈ Γ.vars, V x)
    (hall : g.All closed.Bounds) (hg : g.Sorts Γ V) (h : Move env g g') : g'.Sorts Γ V := by
  have hwithin := h.within hg.within
  have hface {e : Constraint} {lhs rhs : Term} {k : Nat} (he : e ∈ g.queue)
      (h : Facing env g.state.subst e g.next lhs rhs k) :
      lhs.Over (Telescope.reach g.state.context) ∧ rhs.Over (Telescope.reach g.state.context) := by
    have hbehind : ∀ x ∈ g.state.context.vars, x.id < g.next := fun x hx => by
      obtain ⟨entry, hentry, rfl⟩ := mem_map.1 hx
      exact (hall.context entry hentry).1
    exact h.over hclosed hbehind hg.maps (hg.queue e he)
  have hqueue : ∀ e ∈ g.queue.tail, e.1.Over Γ.reach ∧ e.2.Over Γ.reach :=
    fun e he => hg.queue e (mem_of_mem_tail he)
  cases h with
  | drop => exact ⟨hwithin, hg.cover, hg.solved, hqueue, hg.values, hg.types⟩
  | parts queue hfacing hd =>
    obtain ⟨hm, _, _, _, _, hctors, rfl⟩ := demand_parts hd
    obtain ⟨hlhs, hrhs⟩ := hface mem_cons_self hfacing
    have hparts := hctors.all (fun _ _ h => (over_apps.1 h).2) (hlhs.weaken hg.within.sub)
      (hrhs.weaken hg.within.sub)
    exact ⟨hwithin, hg.cover, hg.solved, forall_mem_append.2 ⟨hparts, hqueue⟩, hg.values, hg.types⟩
  | @solve state e queue lhs rhs t v state' n k m hfacing hd hfree hstate =>
    obtain ⟨hm, hsolve⟩ := demand_solve hd
    obtain ⟨hlhs, hrhs⟩ := hface mem_cons_self hfacing
    have hsolved := solved_of_solve hstate
    have ht := hsolved.value_over (hsolve.value hlhs hrhs) hfree
    have hkeeps := (agrees_rules hclosed fun _ => False).keeps.mono (Nat.zero_le n)
    obtain ⟨hlhs', hrhs'⟩ := hfacing.all hkeeps hall.subst (hall.queue _ mem_cons_self)
    have hbound : closed.Bounds m t :=
      (hsolve.value hlhs' hrhs').mono (upTo_le hm)
    have hn := hfacing.next.trans hm
    refine ⟨hwithin, fun x hx hnone => ?_, fun x hx => ?_, hqueue,
      hsolved.values_over ht hg.values, fun entry hentry => ?_⟩
    · obtain ⟨hx', hne⟩ := hsolved.get?_eq_none.1 hnone
      exact hsolved.mem_vars.2 ⟨hg.cover x hx hx', hne⟩
    · rcases hsolved.values x with ⟨rfl, -⟩ | ⟨-, -, hx'⟩ | ⟨-, a, b, ha, -, -⟩
      · exact hg.within.sub v hsolve.1
      · change (state'.subst.get? x).isSome at hx
        rw [hx'] at hx
        cases hx
      · exact hg.solved x (by rw [ha]; rfl)
    · -- The form of the new type is that of the original one, filled twice.
      obtain ⟨old, hold, hkey, happ⟩ := hsolved.types entry hentry
      obtain ⟨hover, type, htype, hform⟩ := hg.types old hold
      have hbelow := (hall.context old hold).2.mono (upTo_le hn)
      refine ⟨?_, type, by rwa [hkey], ?_⟩
      · refine happ.over (Subst.single_maps_of (fun y hy hne => ?_) ?_) hover
        · exact ⟨hy.1, hsolved.get?_eq_none.2 ⟨hy.2, hne⟩⟩
        · exact ht.weaken fun y hy => ⟨hV y (hwithin.sub y hy), hwithin.unsolved y hy⟩
      · have hsingle : (Subst.single v t).All closed.Bounds m := .single hbound
        have hσ := hall.subst.mono closed.hereditary hn
        change entry.2.nameless [] = (type.nameless []).fill state'.subst.filling
        rw [hsingle.nameless closed.hereditary happ hbelow, hform, Nameless.fill_fill,
          hsolved.filling hσ hbound (hg.within.unsolved v hsolve.1)]

/-- What each move keeps, a run keeps. -/
lemma moves_sorts (hclosed : env.Closed) (hV : ∀ x ∈ Γ.vars, V x)
    (hall : g.All closed.Bounds) (hg : g.Sorts Γ V)
    (h : Relation.ReflTransGen (Move env) g g') : g'.Sorts Γ V := by
  have hkeeps := (agrees_rules hclosed fun _ => False).keeps.mono (Nat.zero_le g.next)
  induction h with
  | refl => exact hg
  | tail hmoves hmove ih => exact hmove.sorts hclosed hV (moves_all hkeeps hall hmoves).2 ih

/-- The solutions of a stage, taken as an instance, agree with themselves. -/
lemma Stage.Sorts.absorbs (hg : g.Sorts Γ V) :
    Subst.Absorbs g.state.subst.filling g.state.subst := by
  intro x
  cases hget : g.state.subst.get? x with
  | none =>
    rw [Subst.image, image_eq_var hget]
    rfl
  | some t =>
    have himage : g.state.subst.image x = t := image_eq hget
    have hfill : (t.nameless []).fill g.state.subst.filling = t.nameless [] := by
      refine t.nameless_fill (hg.values hget) fun y hy => ?_
      change (g.state.subst.image y).nameless [] = _
      rw [Subst.image, image_eq_var (hg.within.unsolved y hy)]
      rfl
    rw [himage, hfill, ← himage]
    rfl

/-- If the solutions in the end satisfy the equations left, they satisfy those at
the start. -/
lemma moves_congruent (hR : env.Agrees R S)
    (hstart : Stage.All S.Bounds ⟨⟨Γ, .empty⟩, equations, n⟩)
    (h : Relation.ReflTransGen (Move env) ⟨⟨Γ, .empty⟩, equations, n⟩ g)
    (hF : g.Congruent R (Accepted env Γ equations n) F) :
    ∀ e ∈ equations, Congruent R (Accepted env Γ equations n) ((e.1.nameless []).fill F)
      ((e.2.nameless []).fill F) := by
  have hstep {g' : Stage}
      (hmoves : Relation.ReflTransGen (Move env) ⟨⟨Γ, .empty⟩, equations, n⟩ g') :
      g'.All S.Bounds ∧ g'.Within Γ := by
    exact ⟨(moves_all (hR.keeps.mono (Nat.zero_le _)) hstart hmoves).2,
      moves_within ⟨fun _ hx => hx, id, fun _ _ => rfl⟩ hmoves⟩
  -- Backwards along the run: a stage asks no more than the stage it moves to.
  induction h with
  | refl => exact hF.queue
  | @tail g g' hmoves hmove ih =>
    obtain ⟨hall, hwithin⟩ := hstep hmoves
    refine ih (hmove.congruent hR hall hwithin.unsolved (fun lhs rhs hacc => ?_) hF)
    exact ⟨g, lhs, rhs, hmoves, hacc, rfl, rfl⟩

end Unify

/-- A unifier over `Γ`, computed up to the supply `m`. -/
structure Unifier.Solves (Γ : Telescope) (m : Nat) (u : Unifier) : Prop where
  /-- Every variable is either solved or left. -/
  parts : ∀ x, x ∈ Γ.vars ↔ x ∈ u.context.vars ∨ u.subst.contains x = true
  disjoint : ∀ x ∈ u.context.vars, u.subst.contains x = false
  nodup : u.context.vars.Nodup
  /-- A solved variable occurs in no value and in no type. -/
  values : ∀ ⦃x : Var⦄, u.subst.contains x = true → ∀ ⦃y : Var⦄ ⦃t : Term⦄,
    u.subst.get? y = some t → t.occurs x = false
  types : ∀ ⦃x : Var⦄, u.subst.contains x = true → ∀ e ∈ u.context, e.2.occurs x = false
  /-- A variable that is left has its type, with the solutions put in. -/
  typed : ∀ ⦃x : Var⦄ ⦃type type' : Term⦄, (x, type) ∈ Γ → (x, type') ∈ u.context →
    ∀ k, m ≤ k → ((u.subst.apply type).value k).alphaEq type' = true

lemma Unify.Stage.Sorts.solves {Γ : Telescope} (hnodup : Γ.vars.Nodup) {g : Stage}
    (hΓ : Γ.All closed.Bounds g.next) (hall : g.All closed.Bounds) (hg : g.Sorts Γ V) :
    g.state.Solves Γ g.next where
  parts x := by
    refine ⟨fun hx => ?_, fun hx => hx.elim (hg.within.sub x) (hg.solved x)⟩
    cases hget : g.state.subst.get? x with
    | none => exact .inl (hg.cover x hx hget)
    | some t => exact .inr (by simp [Subst.contains, hget])
  disjoint x hx := by simp [Subst.contains, hg.within.unsolved x hx]
  nodup := hg.within.nodup hnodup
  values x hx y t hget := by
    by_contra hoccurs
    have hleft := (hg.values hget).occurs (by simpa using hoccurs)
    simp [Subst.contains, hg.within.unsolved x hleft] at hx
  types x hx e he := by
    by_contra hoccurs
    obtain ⟨-, hnone⟩ := (hg.types e he).1.occurs (x := x) (by simpa using hoccurs)
    simp [Subst.contains, hnone] at hx
  typed x type type' htype htype' k hk := by
    obtain ⟨-, original, horiginal, hform⟩ := hg.types _ htype'
    obtain rfl : original = type :=
      congrArg Prod.snd (inj_on_of_nodup_map hnodup horiginal htype rfl)
    have hbelow : ∀ y, (closed.upTo g.next).vars y →
        (g.state.subst.image y).Over (.below k) := fun y hy =>
      (hall.subst.below closed.hereditary y hy).mono (below_le hk)
    rw [alphaEq_iff, nameless_apply hbelow (hΓ _ htype).2]
    exact hform.symm

/-- A unifier partitions the variables of the context, solves for none of those it
mentions, keeps the types of the others, and makes both sides of every equation
congruent. -/
theorem Env.unify_sound {env : Env} (hclosed : env.Closed) {Γ : Telescope}
    (hnodup : Γ.vars.Nodup) {n : Nat} (hΓ : Γ.All Reach.closed.Bounds n)
    {equations : List Constraint}
    (hequations : ∀ e ∈ equations, e.1.Over Γ.reach ∧ e.2.Over Γ.reach) {u : Unifier} {m : Nat}
    (hrun : Eval.Returns (unify env Γ equations) n (.ok (.success u)) m) :
    u.Solves Γ m ∧ ∀ e ∈ equations, ∀ k, m ≤ k →
      Congruent (env.rules hclosed) (Unify.Accepted env Γ equations n)
        (((u.subst.apply e.1).value k).nameless [])
        (((u.subst.apply e.2).value k).nameless []) := by
  have hagrees := agrees_rules hclosed fun _ => False
  have hbehind : ∀ x ∈ Γ.vars, x.id < n := fun x hx => by
    obtain ⟨entry, hentry, rfl⟩ := mem_map.1 hx
    exact (hΓ entry hentry).1
  have hbounds : ∀ e ∈ equations, Reach.closed.Bounds n e.1 ∧ Reach.closed.Bounds n e.2 :=
    fun e he => (hequations e he).imp (·.weaken hbehind) (·.weaken hbehind)
  have hstart : Unify.Stage.All Reach.closed.Bounds ⟨⟨Γ, .empty⟩, equations, n⟩ :=
    ⟨hbounds, All.empty, hΓ⟩
  obtain ⟨g, hmoves, hhalts⟩ := Unify.run_moves (g := ⟨⟨Γ, .empty⟩, equations, n⟩) hrun
  obtain ⟨hnext, hall⟩ := Unify.moves_all (hagrees.keeps.mono (Nat.zero_le n)) hstart hmoves
  -- Nothing is assumed of the types of the context, so any variable may occur in them.
  have htypes : ∀ e ∈ Γ, e.2.Over { vars := fun _ => True } := fun e _ =>
    over_any (fun _ => trivial) (fun _ => trivial) trivial e.2
  have hsorts := Unify.moves_sorts hclosed (fun _ _ => trivial) hstart
    (.start htypes hequations n) hmoves
  have hΓg := Reach.closed.hereditary.telescope_mono hΓ hnext
  have hfinal : g.queue = [] → g.Congruent (env.rules hclosed) (Unify.Accepted env Γ equations n)
      g.state.subst.filling := fun hnil => ⟨by simp [hnil], hsorts.absorbs⟩
  cases hhalts with
  | success =>
    refine ⟨hsorts.solves hnodup hΓg hall, fun e he k hk => ?_⟩
    have hbelow : ∀ y, (Reach.closed.upTo n).vars y → (u.subst.image y).Over (.below k) :=
      fun y hy => (hall.subst.below Reach.closed.hereditary y (hy.trans_le hnext)).mono
        (Reach.below_le hk)
    rw [nameless_apply hbelow (hbounds e he).1, nameless_apply hbelow (hbounds e he).2]
    exact Unify.moves_congruent hagrees hstart hmoves (hfinal rfl) e he
  | front _ _ _ hcloses => cases hcloses

/-- Whether the bodies of all functions are closed. -/
def Signature.closedBodies (sig : Signature) : Bool :=
  sig.entries.all fun entry =>
    match entry.2 with
    | .function f => f.body.all fun body => body.freeVars.isEmpty
    | _ => true

lemma Env.closed_of_closedBodies {env : Env} (h : env.sig.closedBodies = true) :
    env.Closed := by
  intro name body hbody
  unfold Signature.unfoldable? Signature.function? at hbody
  cases hget : env.sig.get? name with
  | none => simp [hget] at hbody
  | some entry =>
    obtain ⟨e, hfind, rfl⟩ := Option.map_eq_some_iff.1 hget
    have hentry := all_eq_true.1 h e (mem_of_find?_eq_some hfind)
    rw [hget] at hbody
    split at hbody
    · next f hf =>
        split at hf
        · next g heq =>
            cases hf
            obtain heq := Option.some.inj heq
            have hfree : body.freeVars = [] := by
              split at hbody
              · simpa [heq, hbody] using hentry
              · cases hbody
            exact over_iff_freeVars.2 (by simp [hfree])
        · cases hf
    · cases hbody

/-! ### Instances -/

namespace Families

def n : Var := ⟨0, "n"⟩

def x : Var := ⟨1, "x"⟩

def nat : Term := .global "Nat"

def succ (t : Term) : Term := .app (.global "succ") t

/-- The family whose members are all the type of numbers. -/
def const (t : Term) : Term := .app (.global "K") t

def env : Env where
  sig :=
    { entries :=
        [("Nat", .family ⟨"Nat", [], .univ, ["zero", "succ"]⟩),
          ("zero", .ctor ⟨"zero", "Nat", 0, 0, nat⟩),
          ("succ", .ctor ⟨"succ", "Nat", 0, 1, .pi n nat nat⟩),
          ("K", .function ⟨"K", .pi n nat .univ, some (.lam n nat nat), true, none⟩)] }
  fuel := 16

lemma env_closed : env.Closed := closed_of_closedBodies rfl

/-- A number, and a number that is typed by way of the first one. -/
def numbers : Telescope := [(n, nat), (x, const (.var n))]

lemma numbers_bounds : numbers.All closed.Bounds 2 := by
  simp [numbers, nat, const, n, x, Telescope.All, Bounds, Term.Over, upTo, closed]

/-- One equation is accepted by conversion, and one solves a variable below a constructor. -/
def equations : List Constraint :=
  [(const (.var n), nat), (succ (.var n), succ (succ (.global "zero")))]

theorem unify_sound_numbers :
    ∃ u, Eval.Returns (unify env numbers equations) 2 (.ok (.success u)) 2 ∧ u.Solves numbers 2 ∧
      ∀ e ∈ equations, ∀ k, 2 ≤ k →
        Congruent (env.rules env_closed) (Unify.Accepted env numbers equations 2)
          (((u.subst.apply e.1).value k).nameless [])
          (((u.subst.apply e.2).value k).nameless []) := by
  have hrun : Eval.Returns (unify env numbers equations) 2
      (.ok (.success ⟨[(x, const (succ (.global "zero")))], ⟨[(n, succ (.global "zero"))]⟩⟩)) 2 :=
    rfl
  have hequations : ∀ e ∈ equations, e.1.Over numbers.reach ∧ e.2.Over numbers.reach := by
    simp [equations, const, nat, succ, numbers, Telescope.reach, Telescope.vars, Term.Over]
  exact ⟨_, hrun, Env.unify_sound env_closed (by decide) numbers_bounds hequations hrun⟩

end Families

end Clausal
