import Clausal.Proofs.Hygiene
import Clausal.Proofs.SlidingReduction
import Clausal.Proofs.Telescope

/-!
# Hereditary properties of terms

Computation takes variables from a supply, so what it keeps of terms is a property
`P n t` of terms `t` behind `n`.  A hereditary property passes to the parts of
applications and function types and to the results of substitution; what reduction,
unification and splitting keep is then shown once for all of them.
-/

namespace Clausal

open Assignment

variable {S : Reach} {env : Env}

/-- A property that passes to parts of terms and through substitution. -/
structure Hereditary (P : Nat → Term → Prop) : Prop where
  mono : ∀ {n m : Nat} {t : Term}, n ≤ m → P n t → P m t
  below : ∀ {n : Nat} {t : Term}, P n t → t.Over (.below n)
  var : ∀ {n : Nat} {x : Var}, P n (.var x) ↔ x.id < n
  app : ∀ {n : Nat} {f a : Term}, P n (.app f a) ↔ P n f ∧ P n a
  dom : ∀ {n : Nat} {v : Var} {dom cod : Term}, P n (.pi v dom cod) → P n dom
  cod : ∀ {n : Nat} {v : Var} {dom cod a : Term}, P n (.pi v dom cod) → P n a →
    P (((Subst.single v a).apply cod).next n) (((Subst.single v a).apply cod).value n)
  apply : ∀ {n : Nat} {σ : Subst} {t : Term}, (∀ x u, σ.get? x = some u → P n u) → P n t →
    P ((σ.apply t).next n) ((σ.apply t).value n)

/-- The values of a substitution have the property. -/
def Subst.All (P : Nat → Term → Prop) (n : Nat) (σ : Subst) : Prop :=
  ∀ ⦃x : Var⦄ ⦃t : Term⦄, σ.get? x = some t → P n t

/-- The variables of a telescope are behind the supply, and their types have
the property. -/
def Telescope.All (P : Nat → Term → Prop) (n : Nat) (Γ : Telescope) : Prop :=
  ∀ e ∈ Γ, e.1.id < n ∧ P n e.2

namespace Hereditary

lemma apps (hP : Hereditary P) {head : Term} :
    P n (head.apps args) ↔ P n head ∧ ∀ a ∈ args, P n a := by
  induction args generalizing head with
  | nil => simp [Term.apps]
  | cons a args ih =>
    have hstep := @ih (.app head a)
    simp only [Term.apps, List.foldl_cons] at hstep ⊢
    rw [hstep, hP.app, List.forall_mem_cons, and_assoc]

variable {Γ : Telescope}

lemma telescope_mono (hP : Hereditary P) (h : Γ.All P n) (hnm : n ≤ m) :
    Γ.All P m := fun e he =>
  ⟨lt_of_lt_of_le (h e he).1 hnm, hP.mono hnm (h e he).2⟩

lemma args (hP : Hereditary P) (h : Γ.All P n) : ∀ a ∈ Γ.args, P n a := by
  intro a ha
  obtain ⟨e, he, rfl⟩ := List.mem_map.1 ha
  exact hP.var.2 (h e he).1

end Hereditary

namespace Subst.All

variable {σ : Subst}

lemma mono (h : σ.All P n) (hP : Hereditary P) (hnm : n ≤ m) : σ.All P m :=
  fun _ _ hget => hP.mono hnm (h hget)

protected lemma empty : Subst.empty.All P n := fun _ _ hget => nomatch hget

lemma image (h : σ.All P n) (hP : Hereditary P) {x : Var} (hx : x.id < n) :
    P n (σ.image x) := by
  unfold Subst.image
  cases hget : σ.entries.get? x with
  | none =>
    rw [image_eq_var hget]
    exact hP.var.2 hx
  | some t =>
    rw [image_eq hget]
    exact h hget

lemma below (h : σ.All P n) (hP : Hereditary P) (x : Var) (hx : x.id < n) :
    (σ.image x).Over (.below n) := hP.below (h.image hP hx)

variable {u : Term}

lemma single (ht : P n t) : (Subst.single v t).All P n := by
  intro x u hget
  rw [eq_of_get?_single hget]
  exact ht

variable (h : σ.All P n)

include h

variable (hP : Hereditary P)

include hP

lemma applied (htu : σ.Applied n m t u) (ht : P n t) :
    P m u := by
  obtain ⟨k, hk, hm, rfl⟩ := htu
  exact hP.mono hm (hP.apply (fun x u hx => hP.mono hk (h hx)) (hP.mono hk ht))

lemma nameless (htu : σ.Applied n m t u) (ht : P n t) :
    u.nameless [] = (t.nameless []).fill σ.filling :=
  htu.nameless (fun x hx => h.below hP x hx) (hP.below ht)

lemma insert (ht : P n t) :
    ((σ.insert v t).value n).All P ((σ.insert v t).next n) := by
  intro x u hget
  rcases get?_insert σ v t n x with ⟨-, hx⟩ | ⟨-, -, hx⟩ | ⟨-, a, b, ha, hx, hab⟩ <;>
    rw [hx] at hget
  · cases hget
    exact hP.mono (insert_next σ v t n) ht
  · cases hget
  · cases hget
    exact (single ht).applied hP hab (h ha)

lemma compose {τ : Subst} (hτ : τ.All P n) :
    ((σ.compose τ).value n).All P ((σ.compose τ).next n) := by
  intro x u hget
  rcases get?_compose σ τ n x with ⟨-, hx⟩ | ⟨a, b, ha, hx, hab⟩ <;> rw [hx] at hget
  · exact hP.mono (compose_next σ τ n) (hτ hget)
  · cases hget
    exact hτ.applied hP hab (h ha)

end Subst.All

/-- Weak-head reduction keeps a hereditary property from some supply on. -/
structure Env.Keeps (env : Env) (P : Nat → Term → Prop) (n₀ : Nat) : Prop where
  hereditary : Hereditary P
  whnf : ∀ {n m : Nat} {t u : Term}, n₀ ≤ n → P n t → Eval.Returns (env.whnf t) n u m → P m u

lemma Env.Keeps.mono (h : env.Keeps P n) (hnm : n ≤ m) : env.Keeps P m :=
  ⟨h.hereditary, fun hk => h.whnf (by omega)⟩

/-! ### Terms within a reach -/

namespace Reach

/-- The same globals and splits, with the variables behind a supply. -/
def upTo (S : Reach) (n : Nat) : Reach := { S with vars := fun x => x.id < n }

/-- The term is within the reach, its variables behind the supply. -/
abbrev Bounds (S : Reach) (n : Nat) (t : Term) : Prop := t.Over (S.upTo n)

lemma upTo_le (h : n ≤ m) : (S.upTo n).Le (S.upTo m) :=
  ⟨fun _ hx => hx.trans_le h, fun _ hc => hc, fun hs => hs⟩

lemma upTo_le_below (S : Reach) (n : Nat) : (S.upTo n).Le (.below n) :=
  ⟨fun _ hx => hx, fun _ _ => trivial, fun _ => trivial⟩

lemma closed_le_upTo (n : Nat) : Reach.closed.Le (Reach.closed.upTo n) :=
  ⟨fun _ hx => False.elim hx, fun _ hc => hc, fun hs => hs⟩

lemma upTo_behind (S : Reach) (n : Nat) : (S.upTo n).Behind n := fun _ hx => hx

end Reach

lemma Reach.hereditary (S : Reach) : Hereditary S.Bounds where
  mono hnm ht := ht.mono (upTo_le hnm)
  below ht := ht.mono (S.upTo_le_below _)
  var := .rfl
  app := .rfl
  dom h := h.1
  cod {n v _ cod _} h ha := (Subst.apply_over (Subst.single_maps v ha) n h.2).mono
    (upTo_le (Subst.apply_next _ cod n))
  apply {n σ t} hσ ht := by
    have hmaps : σ.entries.Maps (S.upTo n) (S.upTo n) := by
      refine ⟨fun x hx => ?_, fun _ hc => hc, fun hs => hs⟩
      cases hget : σ.entries.get? x with
      | none =>
        rw [image_eq_var hget]
        exact hx
      | some u =>
        rw [image_eq hget]
        exact hσ x u hget
    exact (Subst.apply_over hmaps n ht).mono (upTo_le (Subst.apply_next σ t n))

lemma Env.Agrees.upTo (h : env.Agrees R S) (n : Nat) :
    env.Agrees R (S.upTo n) := ⟨h.unfold, h.ctor⟩

lemma Env.Agrees.keeps (h : env.Agrees R S) : env.Keeps S.Bounds 0 where
  hereditary := S.hereditary
  whnf {n _ _ _} _ ht hrun :=
    have hred := Env.whnf_reduct (h.upTo n) (S.upTo_behind n) ht hrun
    hred.reach.mono (Reach.upTo_le hred.next)

end Clausal
