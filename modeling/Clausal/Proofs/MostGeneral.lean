import Clausal.Proofs.Conflict
import Clausal.Proofs.Sorting
import Mathlib.Algebra.GroupWithZero.Nat
import Mathlib.Algebra.Order.BigOperators.Group.List
import Mathlib.Algebra.Order.Group.Nat

/-!
# Most general unifiers of constructor terms

On terms built from variables of the context and constructors with all their
arguments, unification is first-order unification: nothing reduces, and conversion
is equality.  A run ends since a solved variable leaves the context, and every other
move makes the equations that are left smaller.
-/

namespace Clausal

open Assignment Eval Fresh List Subst

variable {args : List Term} {g : Stage} {k : Ctor} {m : Nat}

/-! ### Constructor terms -/

/-- Built from variables of `V` and constructors with all their arguments. -/
inductive Term.OfCtors (sig : Signature) (V : Var → Prop) : Term → Prop
  | var {v : Var} : V v → OfCtors sig V (.var v)
  | ctor {c : Name} {k : Ctor} {args : List Term} : sig.ctor? c = some k →
      args.length = k.numParams + k.numFields → (∀ a ∈ args, OfCtors sig V a) →
      OfCtors sig V ((Term.global c).apps args)

namespace Term

/-- Replace the variables of a term without binders. -/
def graft (f : Var → Term) : Term → Term
  | .var v => f v
  | .app head arg => .app (head.graft f) (arg.graft f)
  | t => t

/-- The number of variables and globals of a term without binders. -/
def weight : Term → Nat
  | .app head arg => head.weight + arg.weight
  | _ => 1

lemma weight_pos : (t : Term) → 0 < t.weight
  | .app head _ => Nat.add_pos_left head.weight_pos _
  | .univ | .var _ | .global _ | .pi _ _ _ | .lam _ _ _ | .ann _ _ | .case _ _ | .absurd _ =>
    Nat.one_pos

lemma weight_apps (head : Term) (args : List Term) :
    (head.apps args).weight = head.weight + (args.map weight).sum := by
  induction args generalizing head with
  | nil => rfl
  | cons a args ih =>
    have hstep : ((Term.app head a).apps args).weight = _ := ih (.app head a)
    simp only [apps, foldl_cons] at hstep ⊢
    rw [hstep, weight, map_cons, sum_cons, Nat.add_assoc]

lemma sum_zip_weight (h : args.length = args'.length) :
    ((args.zip args').map fun p => p.1.weight + p.2.weight).sum =
      (args.map weight).sum + (args'.map weight).sum := by
  induction args generalizing args' with
  | nil =>
    obtain rfl := length_eq_zero_iff.1 h.symm
    rfl
  | cons a args ih =>
    cases args' with
    | nil => simp at h
    | cons a' args' =>
      have hrest := ih (show args.length = args'.length by simpa using h)
      simp only [zip_cons_cons, map_cons, sum_cons, hrest]
      omega

lemma graft_apps (f : Var → Term) (head : Term) (args : List Term) :
    (head.apps args).graft f = (head.graft f).apps (args.map (graft f)) := by
  induction args generalizing head with
  | nil => rfl
  | cons a args ih => exact ih (.app head a)

lemma graft_graft (f g : Var → Term) : (t : Term) →
    (t.graft f).graft g = t.graft fun x => (f x).graft g
  | .app head arg => by simp only [graft, graft_graft f g head, graft_graft f g arg]
  | .univ | .var _ | .global _ | .pi _ _ _ | .lam _ _ _ | .ann _ _ | .case _ _ | .absurd _ => rfl

lemma graft_var : (t : Term) → t.graft .var = t
  | .app head arg => by simp only [graft, graft_var head, graft_var arg]
  | .univ | .var _ | .global _ | .pi _ _ _ | .lam _ _ _ | .ann _ _ | .case _ _ | .absurd _ => rfl

lemma occurs_apps :
    ((Term.global c).apps args).occurs v = true ↔ ∃ a ∈ args, a.occurs v = true := by
  induction args using List.reverseRecOn with
  | nil => simp [apps, occurs]
  | append_singleton args a ih =>
    rw [apps_concat, occurs, Bool.or_eq_true, ih]
    simp [or_and_right, exists_or]

end Term

namespace Term.OfCtors

variable {V W : Var → Prop} {t : Term}

lemma firstOrder (env : Env) (h : t.OfCtors env.sig V) : t.FirstOrder env := by
  induction h with
  | var => trivial
  | ctor hc _ _ ih =>
    have hrigid : env.sig.unfoldable? env.unfold _ = none := Env.unfoldable?_of_ctor? hc
    exact FirstOrder.apps_iff.2 ⟨hrigid, ih⟩

lemma of_apps (h : ((Term.global c).apps args).OfCtors sig V) : ∀ a ∈ args, a.OfCtors sig V := by
  generalize ht : (Term.global c).apps args = t at h
  cases h with
  | var =>
    have hspine := congrArg spine ht
    rw [spine_apps] at hspine
    cases hspine
  | ctor _ _ hargs =>
    have hspine := congrArg (fun t => t.spine.2) ht
    simp only [spine_apps] at hspine
    rwa [hspine]

variable (h : t.OfCtors sig V)

include h

lemma graft (hf : ∀ x, V x → (f x).OfCtors sig W) :
    (t.graft f).OfCtors sig W := by
  induction h with
  | var hv => exact hf _ hv
  | ctor hc hlen _ ih =>
    rw [graft_apps]
    exact .ctor hc (by simpa using hlen) (by simpa using ih)

lemma graft_congr {f g : Var → Term} (hfg : ∀ x, V x → f x = g x) :
    t.graft f = t.graft g := by
  induction h with
  | var hv => exact hfg _ hv
  | ctor _ _ _ ih =>
    rw [graft_apps, graft_apps]
    congr 1
    exact map_congr_left ih

lemma restrict (hW : ∀ x, V x → t.occurs x = true → W x) :
    t.OfCtors sig W := by
  induction h with
  | @var v hv => exact .var (hW v hv (by simp [occurs]))
  | @ctor c k args hc hlen _ ih =>
    exact .ctor hc hlen fun a ha => ih a ha fun x hx hax => hW x hx (occurs_apps.2 ⟨a, ha, hax⟩)

/-- An instance of a term is at least as large as that of a variable in it, and
larger if the term has a constructor. -/
lemma weight_le (f : Var → Term) (hv : t.occurs v = true) :
    (f v).weight ≤ (t.graft f).weight ∧ (t.var? = none → (f v).weight < (t.graft f).weight) := by
  induction h with
  | @var w hw =>
    obtain rfl : w = v := by simpa [occurs] using hv
    exact ⟨le_rfl, fun hvar => by simp [var?] at hvar⟩
  | @ctor c k args _ _ _ ih =>
    obtain ⟨a, ha, hav⟩ := occurs_apps.1 hv
    have hle := (ih a ha hav).1
    have hsum : (a.graft f).weight ≤ ((args.map (Term.graft f)).map weight).sum :=
      single_le_sum (by simp) _ (mem_map_of_mem (mem_map_of_mem ha))
    have hlt : (f v).weight < (((Term.global c).apps args).graft f).weight := by
      rw [graft_apps, weight_apps]
      change _ < 1 + _
      omega
    exact ⟨le_of_lt hlt, fun _ => hlt⟩

end Term.OfCtors

/-! ### Computation on first-order terms -/

namespace Term.FirstOrder

variable {env : Env}

lemma assign_eq (σ : Assignment) (n : Nat) : {t : Term} → t.FirstOrder env →
    (t.assign σ).value n = t.graft σ.image ∧ (t.assign σ).next n = n
  | .var _, _ | .global _, _ => ⟨rfl, rfl⟩
  | .app f a, h => by
    obtain ⟨hf, hfnext⟩ := assign_eq σ n h.2.1
    obtain ⟨ha, hanext⟩ := assign_eq σ n h.2.2
    simp only [Term.assign, value_bind, next_bind, value_pure, next_pure,
      hfnext, hf, ha, hanext, graft, and_self]

variable {t : Term}

lemma apply_eq (σ : Subst) (n : Nat) (h : t.FirstOrder env) :
    (σ.apply t).value n = t.graft σ.image ∧ (σ.apply t).next n = n := by
  by_cases he : σ.isEmpty = true
  · have himage : σ.image = .var := funext fun x => image_of_isEmpty he x
    rw [apply_of_isEmpty he, himage, graft_var]
    exact ⟨rfl, rfl⟩
  · rw [apply_of_not_isEmpty he]
    exact h.assign_eq σ.entries n

lemma returns_whnf (h : t.FirstOrder env) (hfuel : 2 ≤ env.fuel) (n : Nat) :
    Returns (env.whnf t) n t n := by
  obtain ⟨fuel, hfuel'⟩ := Nat.exists_eq_add_of_le' hfuel
  unfold Env.whnf
  rw [hfuel']
  cases hvar : t.var? with
  | some v =>
    cases t <;> simp [Term.var?] at hvar
    exact returns_pure.2 ⟨rfl, rfl⟩
  | none =>
    obtain ⟨g, args, rfl, hg, -, -⟩ := h.spine hvar
    have hspine : Returns (env.whnfSpine (fuel + 1) (.global g) args) n
        ((Term.global g).apps args) n := by
      simp only [Env.whnfSpine, hg]
      exact returns_pure.2 ⟨rfl, rfl⟩
    rcases eq_nil_or_concat args with rfl | ⟨args, a, rfl⟩
    · exact hspine
    · have happ := Term.spine_apps g (args ++ [a])
      rw [concat_eq_append, Term.apps_concat] at *
      simp only [Env.whnfWith, happ]
      exact hspine

/-- On first-order terms conversion with enough fuel decides equality. -/
lemma returns_convertibleWith (hfuel : 2 ≤ env.fuel) {u : Term} (ht : t.FirstOrder env)
    (hu : u.FirstOrder env) (hweight : t.weight ≤ fuel) (n : Nat) :
    Returns (env.convertibleWith fuel t u) n (decide (t = u)) n := by
  induction fuel generalizing t u with
  | zero => exact (not_le.2 t.weight_pos hweight).elim
  | succ fuel ih =>
    unfold Env.convertibleWith
    by_cases heq : t = u
    · simp [heq]
    · rw [if_neg heq, decide_eq_false heq]
      refine returns_bind.2 ⟨t, n, ht.returns_whnf hfuel n, ?_⟩
      refine returns_bind.2 ⟨u, n, hu.returns_whnf hfuel n, ?_⟩
      cases t with
      | app f a =>
        cases u with
        | app f' a' =>
          have hpos := a.weight_pos
          have hpos' := f.weight_pos
          have hsum : f.weight + a.weight ≤ fuel + 1 := hweight
          -- Head and argument weigh less than the application each.
          have hhead := ih ht.2.1 hu.2.1 (show f.weight ≤ fuel by omega)
          have harg := ih ht.2.2 hu.2.2 (show a.weight ≤ fuel by omega)
          refine returns_bind.2 ⟨_, n, hhead, ?_⟩
          by_cases hf : f = f'
          · have ha : a ≠ a' := fun ha => heq (by rw [hf, ha])
            simpa [hf, ha] using harg
          · simp [hf]
        | var | global => exact returns_pure.2 ⟨rfl, rfl⟩
        | _ => exact hu.elim
      | var v =>
        cases u with
        | var w =>
          have hne : v ≠ w := fun h => heq (by rw [h])
          exact returns_pure.2 ⟨by simpa using hne, rfl⟩
        | app | global => exact returns_pure.2 ⟨rfl, rfl⟩
        | _ => exact hu.elim
      | global g =>
        cases u with
        | global h =>
          have hne : g ≠ h := fun hgh => heq (by rw [hgh])
          exact returns_pure.2 ⟨by simpa using hne, rfl⟩
        | app | var => exact returns_pure.2 ⟨rfl, rfl⟩
        | _ => exact hu.elim
      | _ => exact ht.elim

end Term.FirstOrder

variable {Γ : Telescope}

lemma Telescope.sort?_closed (h : ∀ e ∈ Γ, e.2.Over .closed) : Telescope.sort? Γ = some Γ :=
  sort?_backward (pairwise_of_forall_mem_list fun e he _ _ =>
    Bool.eq_false_iff.2 fun hoccurs => (h e he).occurs hoccurs)

/-! ### Moves -/

/-- The same environment with another depth for computations. -/
abbrev Env.withFuel (env : Env) (fuel : Nat) : Env := { env with fuel }

namespace Unify

variable {env : Env} {Γ : Telescope}

/-- Constructor terms over the variables of `Γ`, and solutions over those that
are left, in a context of closed types. -/
structure Stage.OfCtors (sig : Signature) (Γ : Telescope) (g : Stage) : Prop where
  within : g.Within Γ
  queue : ∀ e ∈ g.queue, e.1.OfCtors sig (· ∈ Γ.vars) ∧ e.2.OfCtors sig (· ∈ Γ.vars)
  image : ∀ x ∈ Γ.vars, (g.state.subst.image x).OfCtors sig (· ∈ g.state.context.vars)
  closed : ∀ e ∈ g.state.context, e.2.Over .closed

/-- An instance that makes the sides of the equations left equal, and agrees with
the solutions. -/
structure Stage.SolvedBy (Γ : Telescope) (θ : Var → Term) (g : Stage) : Prop where
  queue : ∀ e ∈ g.queue, e.1.graft θ = e.2.graft θ
  subst : ∀ x ∈ Γ.vars, θ x = (g.state.subst.image x).graft θ

variable {t : Term} {state : Unifier} {queue : List Constraint}

lemma Stage.SolvedBy.graft (h : g.SolvedBy Γ θ) (ht : t.OfCtors sig (· ∈ Γ.vars)) :
    (t.graft g.state.subst.image).graft θ = t.graft θ := by
  rw [Term.graft_graft]
  exact ht.graft_congr fun x hx => (h.subst x hx).symm

/-- The sum of the weights of the equations that are left, with the solutions put in. -/
def Stage.weight (g : Stage) : Nat :=
  (g.queue.map fun e =>
    (e.1.graft g.state.subst.image).weight + (e.2.graft g.state.subst.image).weight).sum

/-- The context is shorter, or it is as long and the equations are smaller. -/
def Stage.Less (g' g : Stage) : Prop :=
  Prod.Lex (· < ·) (· < ·) (g'.state.context.length, g'.weight) (g.state.context.length, g.weight)

lemma Facing.of_ctors (env : Env) (hg : g.OfCtors env.sig Γ) (hfuel : 2 ≤ env.fuel)
    (he : e ∈ g.queue) :
    Facing env g.state.subst e g.next (e.1.graft g.state.subst.image)
      (e.2.graft g.state.subst.image) g.next := by
  obtain ⟨hleft, hright⟩ := hg.queue e he
  obtain ⟨hlhs, hlnext⟩ := (hleft.firstOrder env).apply_eq g.state.subst g.next
  obtain ⟨hrhs, hrnext⟩ := (hright.firstOrder env).apply_eq g.state.subst g.next
  have hl := ((hleft.graft hg.image).firstOrder env).returns_whnf hfuel g.next
  have hr := ((hright.graft hg.image).firstOrder env).returns_whnf hfuel g.next
  exact ⟨g.next, by rwa [hlhs, hlnext], by rwa [hrhs, hrnext]⟩

lemma flexible?_var (hv : v ∈ Δ.vars) : flexible? Δ (.var v) = some v := by
  simp [flexible?, Term.var?, Telescope.contains_iff.2 hv]

lemma flexible?_apps (Δ : Telescope) (c : Name) (args : List Term) :
    flexible? Δ ((Term.global c).apps args) = none := by
  rcases eq_nil_or_concat args with rfl | ⟨args, a, rfl⟩
  · rfl
  · rw [concat_eq_append, Term.apps_concat]
    rfl

lemma ctorSpine?_apps (env : Env) (hc : env.sig.ctor? c = some k) (args : List Term) :
    env.ctorSpine? ((Term.global c).apps args) = some (k, args) := by
  simp [Env.ctorSpine?, Term.globalSpine?_apps, Env.ctor?, hc]

lemma var_ne_apps (v : Var) (c : Name) (args : List Term) :
    Term.var v ≠ (Term.global c).apps args := fun heq => by
  have hspine := congrArg Term.spine heq
  rw [Term.spine_apps] at hspine
  cases hspine

/-- What an equation of constructor terms asks for. -/
inductive Outcome (Δ : Telescope) (lhs rhs : Term) : Demand → Prop
  | same : lhs = rhs → Outcome Δ lhs rhs .nothing
  | solve {v : Var} {t : Term} : lhs ≠ rhs → Solvable Δ lhs rhs v t →
      Outcome Δ lhs rhs (.solve v t)
  | parts {c : Name} {args args' : List Term} : lhs = (Term.global c).apps args →
      rhs = (Term.global c).apps args' → args.length = args'.length →
      Outcome Δ lhs rhs (.parts (args.zip args'))
  | clash {c d : Name} {args args' : List Term} : lhs = (Term.global c).apps args →
      rhs = (Term.global d).apps args' → c ≠ d → Outcome Δ lhs rhs .impossible

lemma compareRigid_outcome (hc : env.sig.ctor? c = some k) (hd : env.sig.ctor? d = some k')
    (hlhs : ((Term.global c).apps args).OfCtors env.sig (· ∈ Δ.vars))
    (hrhs : ((Term.global d).apps args').OfCtors env.sig (· ∈ Δ.vars))
    (hlen : args.length = k.numParams + k.numFields)
    (hlen' : args'.length = k'.numParams + k'.numFields) (n : Nat) :
    ∃ demand, Outcome Δ ((Term.global c).apps args) ((Term.global d).apps args') demand ∧
      ∀ fuel, ((Term.global c).apps args).weight + 2 ≤ fuel →
        Returns (compareRigid (env.withFuel fuel) ((Term.global c).apps args)
          ((Term.global d).apps args')) n demand n := by
  have hconv (fuel : Nat) (hfuel : ((Term.global c).apps args).weight + 2 ≤ fuel) :
      Returns ((env.withFuel fuel).convertible ((Term.global c).apps args)
        ((Term.global d).apps args')) n
        (decide ((Term.global c).apps args = (Term.global d).apps args')) n :=
    Term.FirstOrder.returns_convertibleWith (show 2 ≤ (env.withFuel fuel).fuel by simp; omega)
      (hlhs.firstOrder (env.withFuel fuel)) (hrhs.firstOrder (env.withFuel fuel))
      (show _ ≤ fuel by omega) n
  by_cases heq : (Term.global c).apps args = (Term.global d).apps args'
  · refine ⟨_, .same heq, fun fuel hfuel => ?_⟩
    exact returns_bind.2 ⟨_, n, hconv fuel hfuel, by simp [heq]⟩
  · have hspine (fuel : Nat) := ctorSpine?_apps (env.withFuel fuel) hc args
    have hspine' (fuel : Nat) := ctorSpine?_apps (env.withFuel fuel) hd args'
    by_cases hcd : c = d
    · subst hcd
      obtain rfl : k = k' := Option.some.inj (hc.symm.trans hd)
      have hargs : args.length = args'.length := hlen.trans hlen'.symm
      refine ⟨_, .parts rfl rfl hargs, fun fuel hfuel => ?_⟩
      refine returns_bind.2 ⟨_, n, hconv fuel hfuel, ?_⟩
      simp [heq, hspine, hspine', Term.spine_apps, hargs]
    · refine ⟨_, .clash rfl rfl hcd, fun fuel hfuel => ?_⟩
      refine returns_bind.2 ⟨_, n, hconv fuel hfuel, ?_⟩
      simp [heq, hspine, hspine', Term.spine_apps, hcd]

/-- On constructor terms a demand is always decided. -/
lemma demand_outcome (hlhs : lhs.OfCtors env.sig (· ∈ Δ.vars))
    (hrhs : rhs.OfCtors env.sig (· ∈ Δ.vars)) (n : Nat) :
    ∃ d, Outcome Δ lhs rhs d ∧
      ∀ fuel, lhs.weight + 2 ≤ fuel →
        Returns (demand (env.withFuel fuel) Δ lhs rhs) n d n := by
  have hleft := hlhs
  have hright := hrhs
  cases hlhs with
  | @var v hv =>
    cases hrhs with
    | @var w hw =>
      by_cases hvw : v = w
      · refine ⟨_, .same (by rw [hvw]), fun fuel _ => ?_⟩
        simp [demand, flexible?_var hw, hvw]
      · obtain ⟨x, t, heq, hsolve⟩ := solveLater_cases hv hw
        refine ⟨_, .solve (by simpa using hvw) hsolve, fun fuel _ => ?_⟩
        simp [demand, flexible?_var hv, flexible?_var hw, hvw, heq]
    | @ctor c k args hc hlen hargs =>
      refine ⟨_, .solve (var_ne_apps v c args) ⟨hv, .inl ⟨rfl, rfl⟩⟩, fun fuel _ => ?_⟩
      simp [demand, flexible?_var hv, flexible?_apps]
  | @ctor c k args hc hlen hargs =>
    cases hrhs with
    | @var w hw =>
      refine ⟨_, .solve (var_ne_apps w c args).symm ⟨hw, .inr ⟨rfl, rfl⟩⟩, fun fuel _ => ?_⟩
      simp [demand, flexible?_var hw, flexible?_apps]
    | @ctor d k' args' hd hlen' hargs' =>
      obtain ⟨demand, houtcome, hreturns⟩ :=
        compareRigid_outcome hc hd hleft hright hlen hlen' n
      refine ⟨demand, houtcome, fun fuel hfuel => ?_⟩
      unfold Unify.demand
      rw [flexible?_apps, flexible?_apps]
      exact hreturns fuel hfuel

lemma solve_of_closed (hclosed : ∀ e ∈ Δ, e.2.Over .closed) (σ : Subst) (v : Var) (t : Term)
    (n : Nat) : ∃ state, (solve Δ σ v t).value n = some state ∧
      ∀ e ∈ state.context, e.2.Over .closed := by
  have hmaps : (Subst.single v t).entries.Maps .closed .closed :=
    ⟨fun _ hx => hx.elim, fun _ hc => hc, fun hs => hs⟩
  have hentries := (applyTelescope_spec v t Δ n).2
  have hclosed' : ∀ e ∈ ((Subst.single v t).applyTelescope Δ).value n, e.2.Over .closed := by
    intro e he
    obtain ⟨old, hold, -, happ⟩ := mem_of_forall₂ hentries he
    exact happ.over hmaps (hclosed old (mem_of_mem_filter hold))
  refine ⟨⟨((Subst.single v t).applyTelescope Δ).value n,
    (σ.insert v t).value (((Subst.single v t).applyTelescope Δ).next n)⟩, ?_, hclosed'⟩
  simp only [solve, value_bind, Telescope.sort?_closed hclosed', value_pure]

lemma Solved.image (h : Solved Δ σ v t n state m) (hv : σ.get? v = none)
    (hx : (σ.image x).FirstOrder env) :
    state.subst.image x = (σ.image x).graft (Subst.single v t).image := by
  rcases h.values x with ⟨rfl, hx'⟩ | ⟨hne, hnone, hx'⟩ | ⟨-, a, b, ha, hx', hab⟩
  · rw [Subst.image, image_eq hx', Subst.image, image_eq_var hv, Term.graft,
      image_single, if_pos rfl]
  · rw [Subst.image, image_eq_var hx', Subst.image, image_eq_var hnone,
      Term.graft, image_single, if_neg hne]
  · have hσ : σ.image x = a := image_eq ha
    rw [hσ] at hx ⊢
    rw [Subst.image, image_eq hx']
    obtain ⟨k, -, -, rfl⟩ := hab
    exact (hx.apply_eq _ k).1

lemma Solved.length_lt (h : Solved Δ σ v t n state m) (hv : v ∈ Δ.vars) :
    state.context.length < Δ.length := by
  have hlen := h.vars.length_eq
  have hlt : (Δ.vars.filter (· ≠ v)).length < Δ.vars.length :=
    length_filter_lt_length_iff_exists.2 ⟨v, hv, by simp⟩
  simp only [Telescope.vars, length_map] at hlen hlt
  omega

lemma Solvable.var?_eq_none (h : Solvable Δ lhs rhs v t) (hne : lhs ≠ rhs)
    (hoccurs : t.occurs v = true) : t.var? = none := by
  cases hvar : t.var? with
  | none => rfl
  | some w =>
    cases t <;> simp [Term.var?] at hvar
    obtain rfl := by simpa [Term.occurs] using hoccurs
    obtain ⟨-, ⟨hl, hr⟩ | ⟨hr, hl⟩⟩ := h
    · exact (hne (hl.trans hr.symm)).elim
    · exact (hne (hl.trans hr.symm)).elim

lemma Solvable.graft_iff (h : Solvable Δ lhs rhs v t) (θ : Var → Term) :
    lhs.graft θ = rhs.graft θ ↔ θ v = t.graft θ := by
  obtain ⟨-, ⟨rfl, rfl⟩ | ⟨rfl, rfl⟩⟩ := h
  · rfl
  · exact eq_comm

/-- An instance of the value of a variable is the value of the variable: then it
may be replaced. -/
lemma graft_single (h : θ v = t.graft θ) (u : Term) :
    (u.graft (Subst.single v t).image).graft θ = u.graft θ := by
  have hfun : (fun x => ((Subst.single v t).image x).graft θ) = θ := by
    funext x
    rw [image_single]
    split
    · next hx => rw [← h, hx]
    · rfl
  rw [Term.graft_graft, hfun]

lemma graft_apps_eq_iff (hlen : args.length = args'.length) (θ : Var → Term) :
    ((Term.global c).apps args).graft θ = ((Term.global c).apps args').graft θ ↔
      ∀ p ∈ args.zip args', p.1.graft θ = p.2.graft θ := by
  have hmap : args.map (Term.graft θ) = args'.map (Term.graft θ) ↔
      ∀ p ∈ args.zip args', p.1.graft θ = p.2.graft θ := by
    rw [← forall₂_eq_eq_eq, forall₂_map_left_iff, forall₂_map_right_iff, forall₂_iff_zip]
    exact ⟨fun h p hp => h.2 hp, fun h => ⟨hlen, fun hp => h _ hp⟩⟩
  rw [Term.graft_apps, Term.graft_apps, ← hmap]
  refine ⟨fun h => ?_, fun h => by rw [h]⟩
  have hspine := congrArg (fun t => t.spine.2) h
  simpa [Term.graft, Term.spine_apps] using hspine

/-- The front equation says of an instance what its sides, with the solutions put
in, say. -/
lemma Stage.OfCtors.solvedBy_cons (hg : Stage.OfCtors sig Γ ⟨state, e :: queue, n⟩)
    (θ : Var → Term) (m : Nat) :
    Stage.SolvedBy Γ θ ⟨state, e :: queue, n⟩ ↔ Stage.SolvedBy Γ θ ⟨state, queue, m⟩ ∧
      (e.1.graft state.subst.image).graft θ = (e.2.graft state.subst.image).graft θ := by
  obtain ⟨hleft, hright⟩ := hg.queue _ mem_cons_self
  constructor
  · intro h
    refine ⟨⟨fun e' he' => h.queue e' (mem_cons_of_mem _ he'), h.subst⟩, ?_⟩
    exact (h.graft hleft).trans ((h.queue e mem_cons_self).trans (h.graft hright).symm)
  · rintro ⟨h, heq⟩
    refine ⟨fun e' he' => ?_, h.subst⟩
    rcases mem_cons.1 he' with rfl | he'
    · exact (h.graft hleft).symm.trans (heq.trans (h.graft hright))
    · exact h.queue e' he'

lemma Stage.OfCtors.tail (hg : Stage.OfCtors sig Γ ⟨state, e :: queue, n⟩) :
    ∀ e' ∈ queue, e'.1.OfCtors sig (· ∈ Γ.vars) ∧ e'.2.OfCtors sig (· ∈ Γ.vars) :=
  fun e' he' => hg.queue e' (mem_cons_of_mem _ he')

/-- Terms over the variables that are left do not change when the solutions are put in. -/
lemma Stage.OfCtors.graft_image (hg : g.OfCtors sig Γ)
    (ht : t.OfCtors sig (· ∈ g.state.context.vars)) : t.graft g.state.subst.image = t := by
  have hcongr := ht.graft_congr (f := g.state.subst.image) (g := .var) fun x hx => by
    rw [Subst.image, image_eq_var (hg.within.unsolved x hx)]
  rw [hcongr, Term.graft_var]

/-- A stage of constructor terms is final, is refuted, or moves to a smaller one
with the same solutions. -/
inductive Stage.Progress (env : Env) (Γ : Telescope) (g : Stage) : Prop
  | done : g.queue = [] → Progress env Γ g
  | refuted (fuel₀ : Nat) :
      (∀ fuel, fuel₀ ≤ fuel → Halts (env.withFuel fuel) g (.ok .conflict) g.next) →
      (∀ θ, ¬ g.SolvedBy Γ θ) → Progress env Γ g
  | moves (fuel₀ : Nat) {g' : Stage} :
      (∀ fuel, fuel₀ ≤ fuel → Move (env.withFuel fuel) g g') →
      g'.OfCtors env.sig Γ → g'.Less g → (∀ θ, g.SolvedBy Γ θ ↔ g'.SolvedBy Γ θ) →
      Progress env Γ g

/-- What every run that is deep enough does with the front equation of a stage of
constructor terms. -/
structure Stage.Fronts (env : Env) (Γ : Telescope) (state : Unifier) (e : Constraint)
    (queue : List Constraint) (n fuel₀ : Nat) (d : Demand) : Prop where
  ofCtors : Stage.OfCtors env.sig Γ ⟨state, e :: queue, n⟩
  facing : ∀ fuel, fuel₀ ≤ fuel → Facing (env.withFuel fuel) state.subst e n
    (e.1.graft state.subst.image) (e.2.graft state.subst.image) n
  demands : ∀ fuel, fuel₀ ≤ fuel → Returns (demand (env.withFuel fuel) state.context
    (e.1.graft state.subst.image) (e.2.graft state.subst.image)) n d n

namespace Stage.Fronts

variable {state : Unifier} {e : Constraint} {queue : List Constraint} {n : Nat}

lemma sides (h : Fronts env Γ state e queue n fuel₀ d) :
    (e.1.graft state.subst.image).OfCtors env.sig (· ∈ state.context.vars) ∧
      (e.2.graft state.subst.image).OfCtors env.sig (· ∈ state.context.vars) :=
  have hfront := h.ofCtors.queue e mem_cons_self
  ⟨hfront.1.graft h.ofCtors.image, hfront.2.graft h.ofCtors.image⟩

lemma same (h : Fronts env Γ state e queue n fuel₀ .nothing)
    (heq : e.1.graft state.subst.image = e.2.graft state.subst.image) :
    Progress env Γ ⟨state, e :: queue, n⟩ := by
  have hg := h.ofCtors
  have hmove := fun fuel hfuel => Move.drop queue (h.facing fuel hfuel) (h.demands fuel hfuel)
  refine .moves _ hmove ⟨⟨hg.within.sub, hg.within.nodup, hg.within.unsolved⟩, hg.tail,
    hg.image, hg.closed⟩ (.right _ ?_) fun θ => ?_
  · have hpos := (e.1.graft state.subst.image).weight_pos
    simp only [Stage.weight, map_cons, sum_cons]
    omega
  · rw [hg.solvedBy_cons θ n, and_iff_left (congrArg _ heq)]

variable {t : Term}

/-- The instances of the stage after a variable is solved are those that give the
variable the instance of its value. -/
lemma solvedBy_solve (hg : Stage.OfCtors env.sig Γ ⟨state, e :: queue, n⟩)
    (hv : v ∈ state.context.vars) (hsolved : Solved state.context state.subst v t n state' m)
    (θ : Var → Term) :
    Stage.SolvedBy Γ θ ⟨state, queue, n⟩ ∧ θ v = t.graft θ ↔
      Stage.SolvedBy Γ θ ⟨state', queue, m⟩ := by
  have hunsolved := hg.within.unsolved v hv
  have himage : ∀ x ∈ Γ.vars,
      state'.subst.image x = (state.subst.image x).graft (Subst.single v t).image := fun x hx =>
    hsolved.image hunsolved ((hg.image x hx).firstOrder env)
  constructor
  · rintro ⟨h, hvalue⟩
    refine ⟨h.queue, fun x hx => ?_⟩
    change θ x = (state'.subst.image x).graft θ
    rw [himage x hx, graft_single hvalue]
    exact h.subst x hx
  · intro h
    have hvalue : θ v = t.graft θ := by
      have hx : θ v = (state'.subst.image v).graft θ := h.subst v (hg.within.sub v hv)
      have hvar : state.subst.image v = .var v := image_eq_var hunsolved
      rwa [himage v (hg.within.sub v hv), hvar, Term.graft, image_single, if_pos rfl] at hx
    refine ⟨⟨h.queue, fun x hx => ?_⟩, hvalue⟩
    have hx' : θ x = (state'.subst.image x).graft θ := h.subst x hx
    rwa [himage x hx, graft_single hvalue] at hx'

section

variable (h : Fronts env Γ state e queue n fuel₀ (.solve v t))

include h

variable (hsolve : Solvable state.context (e.1.graft state.subst.image)
  (e.2.graft state.subst.image) v t)

include hsolve

lemma solve
    (hfree : t.occurs v = false) : Progress env Γ ⟨state, e :: queue, n⟩ := by
  have hg := h.ofCtors
  obtain ⟨state', hstate, hclosed⟩ := solve_of_closed hg.closed state.subst v t n
  have hsolved := solved_of_solve hstate
  have hmove : ∀ fuel, fuel₀ ≤ fuel → Move (env.withFuel fuel) ⟨state, e :: queue, n⟩
      ⟨state', queue, (Unify.solve state.context state.subst v t).next n⟩ := fun fuel hfuel =>
    .solve queue (h.facing fuel hfuel) (h.demands fuel hfuel) hfree hstate
  have hwithin := (hmove fuel₀ (by omega)).within hg.within
  have ht : t.OfCtors env.sig (· ∈ state'.context.vars) := by
    refine (hsolve.value h.sides.1 h.sides.2).restrict fun x hx hoccurs =>
      hsolved.mem_vars.2 ⟨hx, ?_⟩
    rintro rfl
    rw [hfree] at hoccurs
    cases hoccurs
  refine .moves fuel₀ hmove ⟨hwithin, hg.tail, fun x hx => ?_, hclosed⟩
    (.left _ _ (hsolved.length_lt hsolve.1)) fun θ => ?_
  · change (state'.subst.image x).OfCtors env.sig _
    rw [hsolved.image (hg.within.unsolved v hsolve.1) ((hg.image x hx).firstOrder env)]
    refine (hg.image x hx).graft fun y hy => ?_
    rw [image_single]
    split
    · exact ht
    · next hne => exact .var (hsolved.mem_vars.2 ⟨hy, Ne.symm hne⟩)
  · rw [hg.solvedBy_cons θ n, hsolve.graft_iff θ, solvedBy_solve hg hsolve.1 hsolved θ]

/-- A variable that occurs in its value has no instance: that of the value is larger. -/
lemma cycle
    (hne : e.1.graft state.subst.image ≠ e.2.graft state.subst.image)
    (hoccurs : t.occurs v = true) : Progress env Γ ⟨state, e :: queue, n⟩ := by
  have ht := hsolve.value h.sides.1 h.sides.2
  have hvar := hsolve.var?_eq_none hne hoccurs
  obtain ⟨c, k, args, rfl, hc⟩ : ∃ c k args, t = (Term.global c).apps args ∧
      env.sig.ctor? c = some k := by
    cases ht with
    | var => simp [Term.var?] at hvar
    | ctor hc => exact ⟨_, _, _, rfl, hc⟩
  refine .refuted fuel₀ (fun fuel hfuel => .front queue (h.facing fuel hfuel)
    (h.demands fuel hfuel) (.cycle hoccurs ?_)) fun θ hθ => ?_
  · rw [ctorSpine?_apps (env.withFuel fuel) hc]
    rfl
  · have heq := (hsolve.graft_iff θ).1 ((h.ofCtors.solvedBy_cons θ n).1 hθ).2
    have hlt := (ht.weight_le θ hoccurs).2 hvar
    rw [heq] at hlt
    exact lt_irrefl _ hlt

end

/-- Equations between arguments take the place of one between constructor forms. -/
lemma parts (h : Fronts env Γ state e queue n fuel₀ (.parts (args.zip args')))
    (hl : e.1.graft state.subst.image = (Term.global c).apps args)
    (hr : e.2.graft state.subst.image = (Term.global c).apps args')
    (hlen : args.length = args'.length) : Progress env Γ ⟨state, e :: queue, n⟩ := by
  have hg := h.ofCtors
  obtain ⟨hlhs, hrhs⟩ := h.sides
  have hmove := fun fuel hfuel => Move.parts queue (h.facing fuel hfuel) (h.demands fuel hfuel)
  have hargs : ∀ p ∈ args.zip args', p.1.OfCtors env.sig (· ∈ state.context.vars) ∧
      p.2.OfCtors env.sig (· ∈ state.context.vars) := fun p hp => by
    obtain ⟨hp₁, hp₂⟩ := of_mem_zip hp
    exact ⟨(hl ▸ hlhs).of_apps _ hp₁, (hr ▸ hrhs).of_apps _ hp₂⟩
  refine .moves fuel₀ hmove ⟨⟨hg.within.sub, hg.within.nodup, hg.within.unsolved⟩,
    fun p hp => ?_, hg.image, hg.closed⟩ (.right _ ?_) fun θ => ?_
  · rcases mem_append.1 hp with hp | hp
    · exact (hargs p hp).imp (·.restrict fun x hx _ => hg.within.sub x hx)
        (·.restrict fun x hx _ => hg.within.sub x hx)
    · exact hg.tail p hp
  · -- The constructor itself is what the equations between the arguments lack.
    have hsum : ((args.zip args').map fun p => (p.1.graft state.subst.image).weight +
        (p.2.graft state.subst.image).weight).sum =
        (args.map Term.weight).sum + (args'.map Term.weight).sum := by
      rw [← Term.sum_zip_weight hlen]
      refine congrArg List.sum (map_congr_left fun p hp => ?_)
      rw [hg.graft_image (hargs p hp).1, hg.graft_image (hargs p hp).2]
    simp only [Stage.weight, map_append, sum_append, map_cons, sum_cons,
      hsum, hl, hr, Term.weight_apps]
    simp only [Term.weight]
    omega
  · rw [hg.solvedBy_cons θ n, hl, hr, graft_apps_eq_iff hlen]
    constructor
    · rintro ⟨hθ, hparts⟩
      exact ⟨fun p hp => (mem_append.1 hp).elim (hparts p) (hθ.queue p), hθ.subst⟩
    · intro hθ
      exact ⟨⟨fun p hp => hθ.queue p (mem_append_right _ hp), hθ.subst⟩,
        fun p hp => hθ.queue p (mem_append_left _ hp)⟩

lemma clash (h : Fronts env Γ state e queue n fuel₀ .impossible)
    (hl : e.1.graft state.subst.image = (Term.global c).apps args)
    (hr : e.2.graft state.subst.image = (Term.global d).apps args') (hcd : c ≠ d) :
    Progress env Γ ⟨state, e :: queue, n⟩ := by
  refine .refuted fuel₀ (fun fuel hfuel => .front queue (h.facing fuel hfuel)
    (h.demands fuel hfuel) .clash) fun θ hθ => ?_
  have heq := ((h.ofCtors.solvedBy_cons θ n).1 hθ).2
  rw [hl, hr, Term.graft_apps, Term.graft_apps] at heq
  have hspine := congrArg (fun t => t.spine.1) heq
  simp [Term.graft, Term.spine_apps, hcd] at hspine

end Stage.Fronts

lemma Stage.OfCtors.progress (hg : g.OfCtors env.sig Γ) : g.Progress env Γ := by
  obtain ⟨state, queue, n⟩ := g
  cases queue with
  | nil => exact .done rfl
  | cons e queue =>
    obtain ⟨hleft, hright⟩ := hg.queue e mem_cons_self
    obtain ⟨d, houtcome, hdemand⟩ := demand_outcome (hleft.graft hg.image) (hright.graft hg.image) n
    have hface : ∀ fuel, (e.1.graft state.subst.image).weight + 2 ≤ fuel →
        Facing (env.withFuel fuel) state.subst e n (e.1.graft state.subst.image)
          (e.2.graft state.subst.image) n := fun fuel hfuel =>
      Facing.of_ctors (env.withFuel fuel) hg (show 2 ≤ fuel by omega) mem_cons_self
    have hfront : Stage.Fronts env Γ state e queue n _ d := ⟨hg, hface, hdemand⟩
    cases houtcome with
    | same heq => exact hfront.same heq
    | @solve v t hne hsolve =>
      cases hoccurs : t.occurs v with
      | false => exact hfront.solve hsolve hoccurs
      | true => exact hfront.cycle hsolve hne hoccurs
    | parts hl hr hlen => exact hfront.parts hl hr hlen
    | clash hl hr hcd => exact hfront.clash hl hr hcd

/-- What the answer of a run says about the instances of a stage. -/
def Stage.Answers (sig : Signature) (Γ : Telescope) (g : Stage) : Unified → Prop
  | .success u => (∃ n, Stage.OfCtors sig Γ ⟨u, [], n⟩) ∧
      ∀ θ, g.SolvedBy Γ θ ↔ ∀ x ∈ Γ.vars, θ x = (u.subst.image x).graft θ
  | .conflict => ∀ θ, ¬ g.SolvedBy Γ θ

/-- From a stage of constructor terms every run that is deep enough ends with an
answer. -/
lemma Stage.OfCtors.run (hg : g.OfCtors env.sig Γ) :
    ∃ fuel₀ r m, g.Answers env.sig Γ r ∧ ∀ depth fuel, fuel₀ ≤ depth → fuel₀ ≤ fuel →
      Returns (Unify.run (env.withFuel depth) fuel g.state g.queue) g.next (.ok r) m := by
  have hwf : WellFounded Stage.Less :=
    InvImage.wf (fun g : Stage => (g.state.context.length, g.weight))
      (Prod.lex Nat.lt_wfRel Nat.lt_wfRel).wf
  induction g using hwf.induction with
  | _ g ih =>
    cases hg.progress with
    | done hnil =>
      obtain ⟨state, queue, n⟩ := g
      obtain rfl : queue = [] := hnil
      have hanswer : Stage.Answers env.sig Γ ⟨state, [], n⟩ (.success state) :=
        ⟨⟨n, hg⟩, fun θ => ⟨fun h => h.subst, fun h => ⟨by simp, h⟩⟩⟩
      refine ⟨1, .success state, n, hanswer, fun depth fuel _ hfuel => ?_⟩
      obtain ⟨fuel, rfl⟩ := Nat.exists_eq_add_of_le' hfuel
      exact (Halts.success state n).run fuel
    | refuted fuel₀ hhalts hnone =>
      refine ⟨fuel₀ + 1, .conflict, g.next, hnone, fun depth fuel hdepth hfuel => ?_⟩
      obtain ⟨fuel, rfl⟩ := Nat.exists_eq_add_of_le' (show 1 ≤ fuel by omega)
      exact (hhalts depth (by omega)).run fuel
    | @moves fuel₀ g' hmove hg' hless hiff =>
      obtain ⟨fuel₁, r, m, hanswer, hrun⟩ := ih g' hless hg'
      -- One round for this move, and what the rest of the run needs.
      refine ⟨fuel₀ + fuel₁ + 1, r, m, ?_, fun depth fuel hdepth hfuel => ?_⟩
      · cases r with
        | success u => exact ⟨hanswer.1, fun θ => (hiff θ).trans (hanswer.2 θ)⟩
        | conflict => exact fun θ h => hanswer θ ((hiff θ).1 h)
      · obtain ⟨fuel, rfl⟩ := Nat.exists_eq_add_of_le' (show 1 ≤ fuel by omega)
        exact (hmove depth (by omega)).run (hrun depth fuel (by omega) (by omega))

end Unify

/-! ### Most general unifiers -/

/-- A substitution makes both sides of every equation the same term. -/
def Subst.Unifies (θ : Subst) (equations : List Constraint) (k : Nat) : Prop :=
  ∀ e ∈ equations, (θ.apply e.1).value k = (θ.apply e.2).value k

/-- Substitution in constructor terms does not depend on the supply. -/
lemma Subst.unifies_iff (θ : Subst) {env : Env}
    (hequations : ∀ e ∈ equations, e.1.OfCtors env.sig (· ∈ Γ.vars) ∧
      e.2.OfCtors env.sig (· ∈ Γ.vars))
    (k n : Nat) :
    θ.Unifies equations k ↔
      Unify.Stage.SolvedBy Γ θ.image ⟨⟨Γ, .empty⟩, equations, n⟩ := by
  have hside {t : Term} (ht : t.OfCtors env.sig (· ∈ Γ.vars)) :
      (θ.apply t).value k = t.graft θ.image :=
    ((ht.firstOrder env).apply_eq θ k).1
  constructor
  · intro h
    refine ⟨fun e he => ?_, fun _ _ => rfl⟩
    rw [← hside (hequations e he).1, ← hside (hequations e he).2]
    exact h e he
  · intro h e he
    rw [hside (hequations e he).1, hside (hequations e he).2]
    exact h.queue e he

/-- The answer is right: a most general unifier, or a conflict if there is no unifier. -/
structure Unified.Decides (Γ : Telescope) (equations : List Constraint) (r : Unified) : Prop where
  success : (∃ u, r = .success u) ↔ ∃ θ : Subst, ∃ k, θ.Unifies equations k
  conflict : r = .conflict ↔ ¬ ∃ θ : Subst, ∃ k, θ.Unifies equations k
  unifier : ∀ u, r = .success u → ∀ k, u.subst.Unifies equations k
  general : ∀ u, r = .success u → ∀ (θ : Subst) (k : Nat), θ.Unifies equations k →
    ∀ x ∈ Γ.vars, ∀ j, (θ.apply (.var x)).value k =
      (θ.apply ((u.subst.apply (.var x)).value j)).value k

/-- On constructor terms over a context of closed types, every run of unification
that is deep enough ends without an error, and with the right answer. -/
theorem Env.unify_mostGeneral (env : Env) {Γ : Telescope} (hclosed : ∀ e ∈ Γ, e.2.Over .closed)
    {equations : List Constraint}
    (hequations : ∀ e ∈ equations,
      e.1.OfCtors env.sig (· ∈ Γ.vars) ∧ e.2.OfCtors env.sig (· ∈ Γ.vars)) (n : Nat) :
    ∃ fuel₀ r m, (∀ fuel, fuel₀ ≤ fuel →
        Eval.Returns (unify (env.withFuel fuel) Γ equations) n (.ok r) m) ∧
      r.Decides Γ equations := by
  have hstart : Unify.Stage.OfCtors env.sig Γ ⟨⟨Γ, .empty⟩, equations, n⟩ :=
    ⟨⟨fun _ hx => hx, id, fun _ _ => rfl⟩, hequations, fun x hx => .var hx, hclosed⟩
  have hunifies (θ : Subst) (k : Nat) := θ.unifies_iff hequations k n
  obtain ⟨fuel₀, r, m, hanswer, hrun⟩ := hstart.run
  refine ⟨fuel₀, r, m, fun fuel hfuel => hrun fuel fuel hfuel hfuel, ?_⟩
  cases r with
  | conflict =>
    have hnone : ¬ ∃ θ : Subst, ∃ k, θ.Unifies equations k := fun ⟨θ, k, h⟩ =>
      hanswer _ ((hunifies θ k).1 h)
    exact ⟨iff_of_false (by simp) hnone, iff_of_true rfl hnone, by simp, by simp⟩
  | success u =>
    obtain ⟨⟨l, hfinal⟩, hiff⟩ := hanswer
    have himage : ∀ x ∈ Γ.vars, (u.subst.image x).OfCtors env.sig (· ∈ u.context.vars) :=
      hfinal.image
    have hself : ∀ k, u.subst.Unifies equations k := fun k =>
      (hunifies u.subst k).2 ((hiff _).2 fun x hx => (hfinal.graft_image (himage x hx)).symm)
    have hsome : ∃ θ : Subst, ∃ k, θ.Unifies equations k := ⟨u.subst, 0, hself 0⟩
    refine ⟨iff_of_true ⟨u, rfl⟩ hsome, iff_of_false (by simp) (not_not_intro hsome),
      fun u' hu' => Unified.success.inj hu' ▸ hself, fun u' hu' θ k hθ x hx j => ?_⟩
    obtain rfl : u = u' := Unified.success.inj hu'
    have hvalue := ((himage x hx).firstOrder env).apply_eq θ k
    rw [apply_var, apply_var, hvalue.1]
    exact (hiff _).1 ((hunifies θ k).1 hθ) x hx

namespace Families

lemma ofCtors_zero (V : Var → Prop) : (Term.global "zero").OfCtors env.sig V :=
  have hargs : ∀ a ∈ ([] : List Term), a.OfCtors env.sig V := by simp
  .ctor (k := ⟨"zero", "Nat", 0, 0, nat⟩) rfl rfl hargs

lemma ofCtors_succ (h : t.OfCtors env.sig V) : (succ t).OfCtors env.sig V :=
  have hargs : ∀ a ∈ [t], a.OfCtors env.sig V := by simpa using h
  .ctor (k := ⟨"succ", "Nat", 0, 1, .pi n nat nat⟩) rfl rfl hargs

def pair : Telescope := [(n, nat), (x, nat)]

/-- Two equations that have one solution. -/
def predecessors : List Constraint :=
  [(succ (.var n), succ (succ (.var x))), (.var n, succ (.global "zero"))]

theorem unify_mostGeneral_predecessors :
    ∃ fuel₀ r m, (∀ fuel, fuel₀ ≤ fuel →
        Eval.Returns (unify (env.withFuel fuel) pair predecessors) 2 (.ok r) m) ∧
      r.Decides pair predecessors := by
  have hn : (Term.var n).OfCtors env.sig (· ∈ pair.vars) := .var (by decide)
  have hx : (Term.var x).OfCtors env.sig (· ∈ pair.vars) := .var (by decide)
  refine Env.unify_mostGeneral env (by simp [pair, nat, Term.Over, Reach.closed]) ?_ 2
  intro e he
  rcases mem_cons.1 he with rfl | he
  · exact ⟨ofCtors_succ hn, ofCtors_succ (ofCtors_succ hx)⟩
  · rw [mem_singleton.1 he]
    exact ⟨hn, ofCtors_succ (ofCtors_zero _)⟩

end Families

end Clausal
