import Clausal.Proofs.Nameless.Basic
import Mathlib.Data.List.Forall2

/-!
# Parallel reduction

Any number of redexes of a term are contracted at once.  The parameter types of
literals and the types of annotations may be forgotten; if parameter types were
kept, reduction would not be confluent.
-/

namespace Clausal.Nameless

open List

variable {l : Bool} {f : Nameless}

/-- What reduction depends on. -/
structure Rules where
  /-- The bodies of functions that may be unfolded. -/
  unfold : Name → Option Nameless
  /-- The name that arms use for a constructor, and its number of parameters. -/
  ctor : Name → Option (Name × Nat)
  closed : ∀ {g body}, unfold g = some body → body.Closed
  rigid : ∀ {c k}, ctor c = some k → unfold c = none

/-- Some redexes of a term are contracted at once.  If `l` holds, the parameter type of a literal
may be forgotten, and a literal that only passes on its argument is a redex. -/
inductive Contract (l : Bool) (R : Rules) : Nameless → Nameless → Prop
  | univ : Contract l R univ univ
  | bound (i : Nat) : Contract l R (bound i) (bound i)
  | free (v : Var) : Contract l R (free v) (free v)
  | global (g : Name) : Contract l R (global g) (global g)
  | pi {a a' b b' : Nameless} :
      Contract l R a a' → Contract l R b b' → Contract l R (pi a b) (pi a' b')
  | lam {a a' b b' : Nameless} :
      Contract l R a a' → Contract l R b b' → Contract l R (lam a b) (lam a' b')
  | app {f f' a a' : Nameless} :
      Contract l R f f' → Contract l R a a' → Contract l R (app f a) (app f' a')
  | ann {t t' a a' : Nameless} :
      Contract l R t t' → Contract l R a a' → Contract l R (ann t a) (ann t' a')
  | case {t t' as as' : Nameless} :
      Contract l R t t' → Contract l R as as' → Contract l R (case t as) (case t' as')
  | absurd {t t' : Nameless} : Contract l R t t' → Contract l R (absurd t) (absurd t')
  | stop : Contract l R stop stop
  | arm {b b' r r' : Nameless} (c : Name) (k : Nat) :
      Contract l R b b' → Contract l R r r' → Contract l R (arm c k b r) (arm c k b' r')
  | beta {b b' x x' : Nameless} (a : Nameless) :
      Contract l R b b' → Contract l R x x' → Contract l R (app (lam a b) x) (b'.instantiate [x'])
  | forget {b b' : Nameless} (a : Nameless) :
      Contract l R b b' → l = true → Contract l R (lam a b) (lam .univ b')
  | erase {t t' : Nameless} (a : Nameless) : Contract l R t t' → Contract l R (ann t a) t'
  | unfold {g : Name} {body : Nameless} : R.unfold g = some body → Contract l R (global g) body
  /-- The parameters of the constructor are dropped, the fields instantiate the arm. -/
  | select {c name : Name} {p k : Nat} {args args' : List Nameless} {t as body body' : Nameless} :
      R.ctor c = some (name, p) → t = (Nameless.global c).apps args →
      as.arm? name = some (k, body) → args.length = p + k →
      Contract l R t ((Nameless.global c).apps args') → Contract l R body body' →
      Contract l R (case t as) (body'.instantiate (args'.drop p).reverse)
  | eta {t t' f : Nameless} (a : Nameless) :
      f = app (t.shift 1) (.bound 0) → Contract l R t t' → l = true → Contract l R (lam a f) t'

/-- Parallel reduction. -/
abbrev Par : Rules → Nameless → Nameless → Prop := Contract true

namespace Contract

lemma refl : (t : Nameless) → Contract l R t t
  | .univ => .univ
  | .bound i => .bound i
  | .free v => .free v
  | .global g => .global g
  | .pi a b => .pi (refl a) (refl b)
  | .lam a b => .lam (refl a) (refl b)
  | .app f a => .app (refl f) (refl a)
  | .ann t a => .ann (refl t) (refl a)
  | .case t as => .case (refl t) (refl as)
  | .absurd t => .absurd (refl t)
  | .stop => .stop
  | .arm c k b r => .arm c k (refl b) (refl r)

/-! ### Heads that no step removes -/

end Contract

/-- No step changes what stands at the head of the term. -/
def Rigid (R : Rules) : Nameless → Prop
  | univ | bound _ | free _ | pi _ _ | absurd _ => True
  | global g => R.unfold g = none
  | app f _ => f.Rigid R
  | _ => False

lemma Rigid.apps (hf : f.Rigid R) (args : List Nameless) : (f.apps args).Rigid R := by
  induction args generalizing f with
  | nil => exact hf
  | cons a args ih => exact ih hf

namespace Contract

lemma app_of_rigid (hf : f.Rigid R) (h : Contract l R (.app f a) w) :
    ∃ f' a', w = .app f' a' ∧ Contract l R f f' ∧ Contract l R a a' := by
  cases h with
  | app hhead harg => exact ⟨_, _, rfl, hhead, harg⟩
  | beta => exact False.elim hf

lemma rigid (ht : t.Rigid R) (h : Contract l R t w) : w.Rigid R := by
  induction h with
  | app _ _ ihf _ => exact ihf ht
  | beta | lam | ann | case | stop | arm | forget | erase | select | eta => exact False.elim ht
  | unfold hbody =>
    have hnone : R.unfold _ = none := ht
    simp [hnone] at hbody
  | _ => exact ht

lemma apps (hf : Contract l R f f') (h : Forall₂ (Contract l R) args args') :
    Contract l R (f.apps args) (f'.apps args') := by
  induction h generalizing f f' with
  | nil => exact hf
  | cons ha _ ih => exact ih (.app hf ha)

/-- A constructor form only steps in its arguments. -/
lemma spine (hg : R.unfold g = none) (h : Contract l R ((Nameless.global g).apps args) w) :
    ∃ args', w = (Nameless.global g).apps args' ∧ Forall₂ (Contract l R) args args' := by
  induction args using reverseRecOn generalizing w with
  | nil =>
    cases h with
    | global => exact ⟨[], rfl, .nil⟩
    | unfold hbody => simp [hg] at hbody
  | append_singleton args a ih =>
    rw [apps_concat] at h
    obtain ⟨f', a', rfl, hhead, harg⟩ := app_of_rigid (.apps (f := .global g) hg args) h
    obtain ⟨args', rfl, hargs⟩ := ih hhead
    exact ⟨args' ++ [a'], (apps_concat _ _ _).symm, rel_append hargs (.cons harg .nil)⟩

lemma spine_args (hg : R.unfold g = none)
    (h : Contract l R ((Nameless.global g).apps args) ((Nameless.global g).apps args')) :
    Forall₂ (Contract l R) args args' := by
  obtain ⟨args'', heq, hargs⟩ := h.spine hg
  obtain ⟨-, rfl⟩ := global_apps_inj heq
  exact hargs

lemma fields_length (hc : R.ctor c = some k) (hlen : args.length = p + j)
    (h : Contract l R ((Nameless.global c).apps args) ((Nameless.global c).apps args')) :
    (args'.drop p).reverse.length = j := by
  have hargs := (h.spine_args (R.rigid hc)).length_eq
  rw [length_reverse, length_drop]
  omega

/-! ### Renaming and filling -/

end Contract

/-- The relation holds of the values of the related fillings, below binders as well. -/
structure Carries (X : Nameless → Nameless → Prop) (C : Filling → Filling → Prop) : Prop where
  free : ∀ {s r}, C s r → ∀ v, X (s.free v) (r.free v)
  bound : ∀ {s r}, C s r → ∀ i, X (s.bound i) (r.bound i)
  under : ∀ {s r}, C s r → ∀ k, C (s.under k) (r.under k)

/-- Fillings that rename bound variables, both in the same way. -/
def Renames (s r : Filling) : Prop :=
  s = r ∧ ∃ ρ : Nat → Nat, s = ⟨Nameless.free, fun i => .bound (ρ i)⟩

lemma Carries.renames (hfree : ∀ v, X (.free v) (.free v)) (hbound : ∀ i, X (.bound i) (.bound i))
      : Carries X Renames where
  free := by
    rintro s _ ⟨rfl, ρ, rfl⟩ v
    exact hfree v
  bound := by
    rintro s _ ⟨rfl, ρ, rfl⟩ i
    exact hbound (ρ i)
  under := by
    rintro s _ ⟨rfl, ρ, rfl⟩ k
    refine ⟨rfl, lift k ρ, ?_⟩
    ext i
    · rfl
    · by_cases h : i < k
      · simp [Filling.under, lift, h]
      · simp [Filling.under, lift, h, shift, rename]

namespace Contract

/-- Reduction commutes with filling, and the values may reduce as well. -/
lemma carry (hC : Carries (Contract l R) C) (h : Contract l R t u) (hs : C s r) :
    Contract l R (t.fill s) (u.fill r) := by
  induction h generalizing s r with
  | univ => exact .univ
  | bound i => exact hC.bound hs i
  | free v => exact hC.free hs v
  | global g => exact .global g
  | pi _ _ iha ihb => exact .pi (iha hs) (ihb (hC.under hs 1))
  | lam _ _ iha ihb => exact .lam (iha hs) (ihb (hC.under hs 1))
  | app _ _ ihf iha => exact .app (ihf hs) (iha hs)
  | ann _ _ iht iha => exact .ann (iht hs) (iha hs)
  | case _ _ iht ihas => exact .case (iht hs) (ihas hs)
  | absurd _ iht => exact .absurd (iht hs)
  | stop => exact .stop
  | arm c k _ _ ihb ihr => exact .arm c k (ihb (hC.under hs k)) (ihr hs)
  | beta a _ _ ihb ihx =>
    rw [fill_instantiate]
    exact .beta _ (ihb (hC.under hs 1)) (ihx hs)
  | forget a _ hl ihb => exact .forget _ (ihb (hC.under hs 1)) hl
  | erase a _ iht => exact .erase _ (iht hs)
  | unfold hbody =>
    rw [R.closed hbody r]
    exact .unfold hbody
  | @select c name p k args args' t as body body' hc ht harm hlen hspine _ ihspine ihbody =>
    subst ht
    have hspine' := ihspine hs
    rw [fill_apps, fill_apps] at hspine'
    have hstep := select hc rfl (arm?_fill name as s harm) (by simpa using hlen) hspine'
      (ihbody (hC.under hs k))
    rw [fill_instantiate, fields_length hc hlen hspine, map_reverse, map_drop]
    simpa only [fill, fill_apps] using hstep
  | @eta t t' f a hf _ hl iht =>
    subst hf
    refine .eta _ ?_ (iht hs) hl
    simp only [fill, shift_fill_under]
    rfl

protected lemma rename (h : Contract l R t u) (ρ : Nat → Nat) :
    Contract l R (t.rename ρ) (u.rename ρ) := by
  rw [rename_eq_fill, rename_eq_fill]
  exact h.carry (.renames .free .bound) ⟨rfl, ρ, rfl⟩

end Contract

/-- Fillings whose values are related. -/
structure FillingRel (X : Nameless → Nameless → Prop) (s r : Filling) : Prop where
  free : ∀ v, X (s.free v) (r.free v)
  bound : ∀ i, X (s.bound i) (r.bound i)

section

variable {X : Nameless → Nameless → Prop} (hrefl : ∀ t, X t t)
include hrefl

lemma Carries.values (hrename : ∀ {t u}, X t u → ∀ ρ, X (t.rename ρ) (u.rename ρ)) :
    Carries X (FillingRel X) where
  free h := h.free
  bound h := h.bound
  under h k := by
    refine ⟨fun v => hrename (h.free v) _, fun i => ?_⟩
    simp only [Filling.under]
    split
    · exact hrefl _
    · exact hrename (h.bound _) _

lemma FillingRel.values (h : Forall₂ X vs ws) : FillingRel X (.values vs) (.values ws) where
  free v := hrefl _
  bound i := by
    simp only [Filling.values, h.length_eq]
    induction h generalizing i with
    | nil => exact hrefl _
    | cons hv _ ih =>
      cases i with
      | zero => exact hv
      | succ i => simpa using ih i

end

namespace Contract

protected lemma fill (h : Contract l R t u) (hs : FillingRel (Contract l R) s r) :
    Contract l R (t.fill s) (u.fill r) := h.carry (.values refl .rename) hs

lemma instantiate (h : Contract l R t u) (hvs : Forall₂ (Contract l R) vs ws) :
    Contract l R (t.instantiate vs) (u.instantiate ws) :=
  h.fill (.values refl hvs)

end Contract

end Clausal.Nameless
