import Clausal.Proofs.Scoping
import Clausal.Proofs.Splitting

/-!
# Scoping of refined contexts

What was over the former context is over the refined one once the substitution of
the refinement is applied.  For that the type of the variable that is split must not
mention the variable: contexts are in dependency order only up to that.
-/

namespace Clausal

open Eval List Subst Term

variable {S : Reach} {type u : Term} {x : Var} {Δ : Telescope}

/-! ### Order below other variables -/

namespace Telescope

/-- Every type is within a reach, below the variables before it and its own. -/
def OrderedIn (S : Reach) : Telescope → Prop
  | [] => True
  | (v, type) :: Γ => type.Over (S.bind [v]) ∧ OrderedIn (S.bind [v]) Γ

variable {Γ : Telescope}

lemma Within.orderedIn (h : Γ.Within S) : Γ.OrderedIn S := by
  induction Γ generalizing S with
  | nil => trivial
  | cons e Γ ih => exact ⟨h.1.mono (S.le_bind [e.1]), ih h.2⟩

lemma orderedIn_append : OrderedIn S (Γ ++ Δ) ↔ Γ.OrderedIn S ∧ Δ.OrderedIn (S.bind Γ.vars) := by
  induction Γ generalizing S with
  | nil =>
    change OrderedIn S Δ ↔ True ∧ OrderedIn (S.bind []) Δ
    rw [S.bind_nil, true_and]
  | cons e Γ ih =>
    change e.2.Over (S.bind [e.1]) ∧ OrderedIn (S.bind [e.1]) (Γ ++ Δ) ↔
      (e.2.Over (S.bind [e.1]) ∧ OrderedIn (S.bind [e.1]) Γ) ∧
        OrderedIn (S.bind ([e.1] ++ vars Γ)) Δ
    rw [ih, S.bind_append, and_assoc]

/-- In order: what a type mentions stands before it or is allowed. -/
lemma orderedIn_iff :
    Γ.OrderedIn { vars := V } ↔ ∀ ⦃Δ Δ' : Telescope⦄ ⦃e : Var × Term⦄, Γ = Δ ++ e :: Δ' →
      ∀ y, e.2.occurs y = true → y = e.1 ∨ y ∈ Δ.vars ∨ V y := by
  induction Γ generalizing V with
  | nil => simp [OrderedIn]
  | cons e Γ ih =>
    have hfirst : e.2.Over (Reach.bind [e.1] { vars := V }) ↔
        ∀ y, e.2.occurs y = true → y ∈ [e.1] ∨ V y := over_iff_occurs
    have hrest := @ih fun y => y ∈ [e.1] ∨ V y
    change e.2.Over (Reach.bind [e.1] { vars := V }) ∧
      OrderedIn { vars := fun y => y ∈ [e.1] ∨ V y } Γ ↔ _
    rw [hfirst, hrest]
    constructor
    · rintro ⟨hown, hlater⟩ Δ Δ' e' heq y hy
      cases Δ with
      | nil =>
        obtain ⟨rfl, rfl⟩ := List.cons.inj heq
        exact (hown y hy).imp (by simp) .inr
      | cons d Δ =>
        obtain ⟨rfl, rfl⟩ := List.cons.inj heq
        have hd : y ∈ vars (e :: Δ) ↔ y ∈ [e.1] ∨ y ∈ vars Δ := by simp [vars]
        rcases hlater rfl y hy with hy | hy | hy | hy
        · exact .inl hy
        · exact .inr (.inl (hd.2 (.inr hy)))
        · exact .inr (.inl (hd.2 (.inl hy)))
        · exact .inr (.inr hy)
    · intro h
      refine ⟨fun y hy => ?_, fun Δ Δ' e' heq y hy => ?_⟩
      · have hnil : e :: Γ = [] ++ e :: Γ := rfl
        rcases h hnil y hy with rfl | hy | hy
        · exact .inl (by simp)
        · cases hy
        · exact .inr hy
      · have hcons : e :: Γ = (e :: Δ) ++ e' :: Δ' := by rw [heq, cons_append]
        rcases h hcons y hy with hy | hy | hy
        · exact .inl hy
        · rcases mem_cons.1 hy with rfl | hy
          · exact .inr (.inr (.inl (by simp)))
          · exact .inr (.inl hy)
        · exact .inr (.inr (.inr hy))

lemma ordered_iff : Γ.Ordered ↔ Γ.OrderedIn .closed := by
  refine Iff.trans ?_ orderedIn_iff.symm
  simp only [Ordered, or_false]

/-- A substitution that leads from one reach to another keeps the order of entries
whose variables it leaves alone. -/
lemma OrderedIn.applied {σ : Subst} (hσ : σ.entries.Maps S R)
    (hΓΔ : List.Forall₂ (fun e e' => e'.1 = e.1 ∧ σ.Applied n m e.2 e'.2) Γ Δ)
    (hkeep : ∀ x ∈ Γ.vars, σ.image x = .var x) (h : Γ.OrderedIn S) : Δ.OrderedIn R := by
  induction hΓΔ generalizing S R with
  | nil => trivial
  | @cons e e' Γ Δ he _ ih =>
    obtain ⟨hkey, happ⟩ := he
    obtain ⟨hown, hkeep⟩ := forall_mem_cons.1 hkeep
    have hσ' : σ.entries.Maps (S.bind [e.1]) (R.bind [e.1]) := by
      refine ⟨fun x hx => ?_, hσ.globals, hσ.splits⟩
      rcases hx with hx | hx
      · obtain rfl := mem_singleton.1 hx
        rw [← image, hown]
        exact .inl hx
      · exact (hσ.vars x hx).mono (R.le_bind [e.1])
    change e'.2.Over (R.bind [e'.1]) ∧ OrderedIn (R.bind [e'.1]) Δ
    rw [hkey]
    exact ⟨happ.over hσ' h.1, ih hσ' hkeep h.2⟩

end Telescope

/-! ### Values of applications -/

lemma Term.apps_append (head : Term) (xs ys : List Term) :
    head.apps (xs ++ ys) = (head.apps xs).apps ys := foldl_append

namespace Subst

variable (σ : Subst)

lemma apply_app (f a : Term) (n : Nat) : ∃ k,
    (σ.apply (.app f a)).value n = .app ((σ.apply f).value n) ((σ.apply a).value k) := by
  by_cases he : σ.isEmpty = true
  · simp only [apply_of_isEmpty he]
    exact ⟨n, rfl⟩
  · simp only [apply_of_not_isEmpty he]
    exact ⟨(f.assign σ.entries).next n, rfl⟩

lemma apply_global (name : Name) (n : Nat) : (σ.apply (.global name)).value n = .global name := by
  by_cases he : σ.isEmpty = true
  · rw [apply_of_isEmpty he]
    rfl
  · rw [apply_of_not_isEmpty he]
    rfl

/-- One term is the other with the substitution applied, whatever the supply was. -/
def Gives (t u : Term) : Prop := ∃ k, (σ.apply t).value k = u

lemma apply_apps (head : Term) (args : List Term) (n : Nat) : ∃ args',
    (σ.apply (head.apps args)).value n = ((σ.apply head).value n).apps args' ∧
      List.Forall₂ σ.Gives args args' := by
  induction args using List.reverseRecOn with
  | nil => exact ⟨[], rfl, .nil⟩
  | append_singleton args a ih =>
    obtain ⟨args', heq, hargs⟩ := ih
    obtain ⟨k, happ⟩ := σ.apply_app (head.apps args) a n
    refine ⟨args' ++ [(σ.apply a).value k], ?_, rel_append hargs (.cons ⟨k, rfl⟩ .nil)⟩
    rw [apps_concat, apps_concat, happ, heq]

lemma gives_vars {vs : List Var} (h : List.Forall₂ σ.Gives (vs.map .var) ts) :
    ts = vs.map σ.image := by
  rw [forall₂_map_left_iff] at h
  induction h with
  | nil => rfl
  | @cons v t vs ts ht _ ih =>
    obtain ⟨k, rfl⟩ := ht
    rw [map_cons, apply_var, ih]

end Subst

namespace Env

variable {env : Env} {V : Var → Prop}

/-! ### Computation over some variables -/

lemma whnf_over (hclosed : env.Closed) (hV : ∀ x, V x → x.id < n) {t : Term}
    (ht : t.Over { vars := V }) (h : Returns (env.whnf t) n u m) : u.Over { vars := V } :=
  (whnf_reduct (agrees_rules hclosed V) hV ht h).reach

/-- Instantiation mentions no more than the type and the arguments. -/
lemma instantiate_over (hclosed : env.Closed) (hV : ∀ x, V x → x.id < n)
    (htype : type.Over { vars := V }) (hargs : ∀ a ∈ args, a.Over { vars := V })
    (h : Returns (env.instantiate type args) n (some u) m) : u.Over { vars := V } := by
  induction args generalizing type n with
  | nil =>
    obtain ⟨heq, rfl⟩ := returns_pure.1 h
    exact Option.some.inj heq ▸ htype
  | cons a args ih =>
    simp only [instantiate, returns_bind] at h
    obtain ⟨type', k, hwhnf, h⟩ := h
    have htype' := whnf_over hclosed hV htype hwhnf
    obtain ⟨ha, hargs⟩ := forall_mem_cons.1 hargs
    split at h
    · next v dom cod =>
        simp only [returns_bind, returns_lift] at h
        obtain ⟨_, _, ⟨rfl, rfl⟩, h⟩ := h
        have hnext := le_trans (env.whnf_forward _ hwhnf) (apply_next (.single v a) cod k)
        exact ih (fun x hx => lt_of_lt_of_le (hV x hx) hnext)
          (apply_over (single_maps v ha) k htype'.2) hargs h
    · cases (returns_pure.1 h).1

/-- Types of fields are over the variables of the constructor's type and the
fields before. -/
lemma Binds.within (hclosed : env.Closed) (hV : ∀ x, V x → x.id < n)
    (htype : type.Over { vars := V }) (h : env.Binds type n fields target m) :
    fields.Within { vars := V } ∧ target.Over (Reach.bind fields.vars { vars := V }) := by
  induction h generalizing V with
  | nil =>
    change True ∧ _
    rw [show Telescope.vars [] = [] from rfl, Reach.bind_nil]
    exact ⟨trivial, htype⟩
  | @cons type dom cod target binder x fields n k j m hwhnf hkj hx hrest ih =>
    have hpi := whnf_over hclosed hV htype hwhnf
    have hnj := le_trans (env.whnf_forward _ hwhnf) hkj
    have hnext := apply_next (.single binder (.var x)) cod j
    -- The field stands for the binder in the rest of the type.
    have hcod : (((single binder (.var x)).apply cod).value j).Over
        { vars := fun y => y ∈ [x] ∨ V y } := by
      have hvar : (var x).Over { vars := fun y => y ∈ [x] ∨ V y } := .inl (by simp)
      refine apply_over (single_maps_of (fun y hy hne => ?_) hvar) j hpi.2
      exact .inr (hy.resolve_left (by simpa using hne))
    have hbehind : ∀ y, y ∈ [x] ∨ V y →
        y.id < ((single binder (.var x)).apply cod).next j := by
      rintro y (hy | hy)
      · rw [mem_singleton.1 hy]
        omega
      · exact lt_of_lt_of_le (hV y hy) (hnj.trans hnext)
    obtain ⟨hfields, htarget⟩ := ih hbehind hcod
    refine ⟨⟨hpi.1, hfields⟩, ?_⟩
    change target.Over (Reach.bind ([x] ++ Telescope.vars fields) { vars := V })
    rw [Reach.bind_append]
    exact htarget

/-! ### Splitting -/

/-- A context in dependency order, in which a variable may be split. -/
structure Splittable (env : Env) (Γ : Telescope) (v : Var) (n : Nat) : Prop where
  closed : env.Closed
  ctor : ∀ ⦃c : Name⦄ ⦃k : Ctor⦄, env.ctor? c = some k → k.type.Over .closed
  nodup : Γ.vars.Nodup
  ordered : Γ.Ordered
  behind : ∀ x ∈ Γ.vars, x.id < n
  /-- The type of the variable does not mention it. -/
  unknotted : ∀ ⦃type : Term⦄, Γ.type? v = some type → type.occurs v = false

namespace Splittable

variable {Γ : Telescope}

variable (h : env.Splittable Γ v n)

include h

lemma admits : env.Admits Reach.closed.Bounds n where
  keeps := (agrees_rules h.closed fun _ => False).keeps.mono (Nat.zero_le n)
  ctor _ _ _ _ _ hk := (h.ctor hk).mono (Reach.closed_le_upTo _)

lemma all : Γ.All Reach.closed.Bounds n := fun e he =>
  ⟨h.behind e.1 (Telescope.mem_vars he), (h.ordered.over e he).weaken h.behind⟩

lemma mono (hnm : n ≤ m) : env.Splittable Γ v m :=
  { h with behind := fun x hx => lt_of_lt_of_le (h.behind x hx) hnm }

end Splittable

namespace Splitting

/-- The entries before the variable. -/
def before (s : Splitting env Γ v c given n m) : Telescope := Γ.take s.position

lemma before_le (s : Splitting env Γ v c given n m) :
    (s.before.reach.bind s.fields.vars).Le s.refined.reach := by
  refine ⟨fun x hx => ?_, fun _ hc => hc, fun hs => hs⟩
  change x ∈ s.refined.vars
  rw [s.refined_vars]
  rcases hx with hx | hx
  · exact mem_append_left _ (mem_append_right _ hx)
  · exact mem_append_left _ (mem_append_left _ hx)

variable (s : Splitting env Γ v c given n m) (h : env.Splittable Γ v n)
  (hgiven : ∀ vs, given = some vs → ∀ x ∈ vs, x.id < n)

include h

lemma before_behind (hk : n ≤ k) : ∀ x ∈ s.before.vars, x.id < k := fun x hx =>
  lt_of_lt_of_le (h.behind x (by rw [s.vars_eq]; exact mem_append_left _ hx)) hk

lemma args_over : ∀ a ∈ s.args, a.Over s.before.reach := by
  obtain ⟨type, name, htype, -, hwhnf⟩ := splitType_yields s.splitType
  obtain ⟨type', hΓ⟩ := Telescope.position?_eq_some s.position?_eq
  have hentry : (v, type') ∈ Γ := by
    rw [hΓ]
    simp
  -- Variables are distinct, so the type that is looked up is that of the entry split.
  obtain rfl : type = type' := congrArg Prod.snd
    (inj_on_of_nodup_map h.nodup (Telescope.mem_of_type? htype) hentry rfl)
  have hover : type.Over s.before.reach := by
    refine over_iff_occurs.2 fun y hy => (h.ordered hΓ y hy).resolve_left ?_
    rintro rfl
    rw [h.unknotted htype] at hy
    cases hy
  exact (over_apps.1 (whnf_over h.closed (s.before_behind h (by omega)) hover hwhnf)).2

lemma type_over : s.type.Over s.before.reach := by
  have hle : Reach.closed.Le s.before.reach :=
    ⟨fun _ hx => False.elim hx, fun _ hc => hc, fun hs => hs⟩
  have hctor := (h.ctor s.ctor?_eq).mono hle
  exact instantiate_over h.closed (s.before_behind h s.supply.1) hctor
    (fun a ha => s.args_over h a (mem_of_mem_take ha)) s.instantiate

lemma value_over : s.value.Over (s.before.reach.bind s.fields.vars) := by
  refine over_apps.2 ⟨trivial, fun a ha => ?_⟩
  rcases mem_append.1 ha with ha | ha
  · exact (s.args_over h a (mem_of_mem_take ha)).mono (Reach.le_bind _ _)
  · obtain ⟨e, he, rfl⟩ := mem_map.1 ha
    exact .inl (Telescope.mem_vars he)

include hgiven

lemma fields_within :
    s.fields.Within s.before.reach ∧ s.target.Over (s.before.reach.bind s.fields.vars) := by
  obtain ⟨h₁, h₂, -⟩ := s.supply
  exact (s.binds hgiven).1.within h.closed (s.before_behind h (by omega)) (s.type_over h)

lemma reduced_over : s.reduced.Over (s.before.reach.bind s.fields.vars) := by
  obtain ⟨h₁, h₂, h₃, -⟩ := s.supply
  obtain ⟨hfields, -⟩ := s.fields_all h.admits trivial h.all hgiven
  refine whnf_over h.closed ?_ (s.fields_within h hgiven).2 s.whnf
  rintro x (hx | hx)
  · obtain ⟨e, he, rfl⟩ := mem_map.1 hx
    exact (hfields e he).1
  · exact s.before_behind h (by omega) x hx

lemma equations_over :
    ∀ e ∈ s.equations, e.1.Over s.refined.reach ∧ e.2.Over s.refined.reach := by
  intro e he
  obtain ⟨hleft, hright⟩ := of_mem_zip he
  have hargs := s.args_over h _ (mem_of_mem_drop hright)
  refine ⟨?_, (hargs.mono (Reach.le_bind _ _)).mono s.before_le⟩
  have hreduced := s.reduced_over h hgiven
  unfold indices at hleft
  split at hleft
  · next name args hspine =>
      rw [eq_of_globalSpine? hspine] at hreduced
      exact ((over_apps.1 hreduced).2 _ (mem_of_mem_drop hleft)).mono s.before_le
  · cases hleft

/-- With the fields in place of the variable, the context is in order again. -/
lemma refined_ordered : s.refined.Ordered := by
  obtain ⟨type, hΓ⟩ := Telescope.position?_eq_some s.position?_eq
  obtain ⟨later, heq, hlater⟩ := s.refined_eq
  have hordered := Telescope.ordered_iff.1 h.ordered
  rw [hΓ, Telescope.orderedIn_append] at hordered
  obtain ⟨hbefore, -, hafter⟩ := hordered
  have hnodup := h.nodup
  rw [s.vars_eq] at hnodup
  -- Later entries mention the value of the variable in its place.
  have hmaps : (single v s.value).entries.Maps
      ((Reach.closed.bind (Telescope.vars (Γ.take s.position))).bind [v])
      (Reach.closed.bind (Telescope.vars (Γ.take s.position ++ s.fields))) := by
    have hmem (x : Var) : x ∈ Telescope.vars (Γ.take s.position ++ s.fields) ↔
        x ∈ s.before.vars ∨ x ∈ s.fields.vars := by
      simp [Telescope.vars, before]
    refine single_maps_of (fun x hx hne => ?_) ((s.value_over h).weaken fun x hx => ?_)
    · rcases hx with hx | hx | hx
      · exact (hne (mem_singleton.1 hx)).elim
      · exact .inl ((hmem x).2 (.inl hx))
      · exact hx.elim
    · exact .inl ((hmem x).2 hx.symm)
  -- The variable is not repeated later, so the keys of later entries stay.
  have hkeep : ∀ x ∈ Telescope.vars (Γ.drop (s.position + 1)),
      (single v s.value).image x = .var x := fun x hx => by
    rw [image_single, if_neg]
    rintro rfl
    exact (nodup_cons.1 (nodup_append.1 hnodup).2.1).1 hx
  rw [Telescope.ordered_iff, heq, Telescope.orderedIn_append, Telescope.orderedIn_append]
  refine ⟨⟨hbefore, ?_⟩, hafter.applied hmaps hlater hkeep⟩
  refine ((s.fields_within h hgiven).1.mono ?_).orderedIn
  exact ⟨fun x hx => .inl hx, fun _ hc => hc, fun hs => hs⟩

end Splitting

/-! ### Refinements -/

namespace Refined

variable (hr : Refined env Γ v n r m)

include hr in
lemma mem_vars : v ∈ Γ.vars := by
  rw [hr.splitting.vars_eq]
  simp

/-- The split variable is replaced by its value with the solutions put in, and
every other variable by its solution. -/
lemma subst_get? :
    (∃ k, r.subst.get? v = some ((hr.unifier.subst.apply hr.splitting.value).value k)) ∧
      ∀ x, x ≠ v → r.subst.get? x = hr.unifier.subst.get? x := by
  have hcompose := get?_compose (.single v hr.splitting.value) hr.unifier.subst hr.last
  rw [← hr.subst_eq] at hcompose
  have hget (x : Var) : (single v hr.splitting.value).get? x =
      if v = x then some hr.splitting.value else none := by
    by_cases hx : v = x <;> simp [single, get?, Assignment.get?, hx]
  refine ⟨?_, fun x hx => ?_⟩
  · rcases hcompose v with ⟨hnone, -⟩ | ⟨a, b, ha, hb, k, -, -, rfl⟩
    · simp [hget] at hnone
    · rw [hget, if_pos rfl] at ha
      cases ha
      exact ⟨k, hb⟩
  · rcases hcompose x with ⟨-, heq⟩ | ⟨a, b, ha, -⟩
    · exact heq
    · rw [hget, if_neg (Ne.symm hx)] at ha
      cases ha

include hr in
lemma subst_ctor : ∃ args, r.subst.image v = (global r.ctor).apps args := by
  obtain ⟨⟨k, hvalue⟩, -⟩ := hr.subst_get?
  obtain ⟨args, happ, -⟩ := hr.unifier.subst.apply_apps (global r.ctor)
    (hr.splitting.args.take hr.splitting.ctor.numParams ++ Telescope.args hr.splitting.fields) k
  refine ⟨args, ?_⟩
  rw [image, Assignment.image_eq hvalue, Splitting.value, happ, apply_global]

lemma subst_image (hx : x ≠ v) : r.subst.image x = hr.unifier.subst.image x := by
  have hget : r.subst.entries.get? x = hr.unifier.subst.entries.get? x := hr.subst_get?.2 x hx
  simp only [image, Assignment.image, hget]

variable (h : env.Splittable Γ v n)

include hr h

lemma splittable : env.Splittable Γ v hr.start := h.mono hr.le_start

lemma refined_behind : ∀ x ∈ hr.splitting.refined.vars, x.id < hr.middle := by
  have hs := hr.splittable h
  intro x hx
  obtain ⟨e, he, rfl⟩ := mem_map.1 hx
  exact (hr.splitting.refined_all hs.admits trivial hs.all hr.given_lt e he).1

lemma context_ordered : r.context.Ordered := by
  have hs := hr.splittable h
  rw [hr.context_eq]
  exact ordered_of_unify h.closed (hr.splitting.refined_ordered hs hr.given_lt)
    (hr.refined_behind h) (hr.splitting.equations_over hs hr.given_lt) hr.unify

lemma unifier_maps :
    hr.unifier.subst.entries.Maps hr.splitting.refined.reach r.context.reach := by
  have hs := hr.splittable h
  rw [hr.context_eq]
  exact maps_of_unify h.closed (hr.splitting.refined_ordered hs hr.given_lt)
    (hr.refined_behind h) (hr.splitting.equations_over hs hr.given_lt) hr.unify

lemma context_nodup : r.context.vars.Nodup := by
  rw [hr.context_eq]
  exact (hr.unifier_all h.admits trivial h.all).2.2.1 (hr.refined_nodup h.nodup h.behind)

lemma subst_maps : r.subst.entries.Maps Γ.reach r.context.reach := by
  obtain ⟨⟨k, hvalue⟩, -⟩ := hr.subst_get?
  have hmaps := hr.unifier_maps h
  refine ⟨fun x hx => ?_, fun _ hc => hc, fun hs => hs⟩
  by_cases hxv : x = v
  · subst hxv
    rw [Assignment.image_eq hvalue]
    have hover := (hr.splitting.value_over (hr.splittable h)).mono hr.splitting.before_le
    exact apply_over hmaps k hover
  · -- The variable is not replaced by the split itself, so it is still there to be solved.
    rw [← image, hr.subst_image hxv]
    refine hmaps.vars x ?_
    change x ∈ hr.splitting.refined.vars
    change x ∈ Γ.vars at hx
    rw [hr.splitting.vars_eq] at hx
    rw [hr.splitting.refined_vars]
    simp only [mem_append, mem_cons] at hx ⊢
    rcases hx with hx | hx | hx
    · exact .inl (.inl hx)
    · exact (hxv hx).elim
    · exact .inr hx

lemma field_ne (hx : x ∈ r.fields) : x ≠ v := by
  rintro rfl
  exact hr.fields_notMem h.behind x hx hr.mem_vars

lemma subst_left : ∀ x ∈ r.context.vars, r.subst.get? x = none := by
  intro x hx
  rw [hr.context_eq] at hx
  obtain ⟨hrefined, hunsolved⟩ := (hr.unifier_all h.admits trivial h.all).2.2.2 x hx
  have hxv : x ≠ v := by
    rcases hr.mem_refined h.nodup hrefined with ⟨-, hne⟩ | hfield
    · exact hne
    · exact hr.field_ne h hfield
  rw [hr.subst_get?.2 x hxv, hunsolved]

/-- The split variable stands for the constructor, applied to parameters and to
what the fields stand for. -/
lemma subst_value : ∃ params, r.subst.get? v =
    some ((global r.ctor).apps (params ++ r.fields.map r.subst.image)) := by
  obtain ⟨⟨k, hvalue⟩, -⟩ := hr.subst_get?
  have hsplit : hr.splitting.value =
      ((global r.ctor).apps (hr.splitting.args.take hr.splitting.ctor.numParams)).apps
        (hr.splitting.fields.vars.map .var) := by
    rw [Splitting.value, apps_append]
    congr 1
    simp [Telescope.args, Telescope.vars]
  -- Applying the solutions to the value spreads the supply over its arguments; the fields
  -- are variables, whose images do not depend on it.
  obtain ⟨fields, happ, hfields⟩ := hr.unifier.subst.apply_apps
    ((global r.ctor).apps (hr.splitting.args.take hr.splitting.ctor.numParams))
    (hr.splitting.fields.vars.map .var) k
  obtain ⟨params, hparams, -⟩ := hr.unifier.subst.apply_apps (global r.ctor)
    (hr.splitting.args.take hr.splitting.ctor.numParams) k
  refine ⟨params, ?_⟩
  rw [hvalue, hsplit, happ, hparams, apply_global, gives_vars _ hfields, apps_append,
    ← hr.fields_eq]
  have hfield : r.fields.map hr.unifier.subst.image = r.fields.map r.subst.image :=
    map_congr_left fun x hx => (hr.subst_image (hr.field_ne h hx)).symm
  rw [hfield]

end Refined

end Env

end Clausal
