import Clausal.Proofs.Hereditary
import Clausal.Proofs.Nameless.Occurrence
import Mathlib.Logic.Function.Basic

/-!
# Substitution captures no variable

On nameless forms substitution fills the free variables and nothing else.  It can
also be run with one map of values that is changed at every binder and put back
behind it.
-/

namespace Clausal

open Assignment Fresh Nameless Reach

variable {u : Term}

/-! ### Free variables of forms -/

namespace Nameless

/-- A variable is free in a form. -/
def HasFree (x : Var) : Nameless → Prop
  | univ | bound _ | global _ | stop => False
  | free v => v = x
  | pi a b | lam a b | app a b | ann a b | case a b | arm _ _ a b => a.HasFree x ∨ b.HasFree x
  | absurd a => a.HasFree x

lemma hasFree_rename (x : Var) (t : Nameless) (ρ : Nat → Nat) :
    (t.rename ρ).HasFree x ↔ t.HasFree x := by
  induction t generalizing ρ with
  | _ => simp_all [rename, HasFree]

end Nameless

/-- The values of bound variables have no free variables. -/
def Filling.Plain (s : Filling) : Prop := ∀ i x, ¬ (s.bound i).HasFree x

lemma Filling.Plain.under {s : Filling} (hs : s.Plain) (k : Nat) : (s.under k).Plain := by
  intro i x
  simp only [Filling.under]
  split
  · simp [HasFree]
  · rw [shift, hasFree_rename]
    exact hs _ x

namespace Nameless

lemma hasFree_under_free (x : Var) (s : Filling) (k : Nat) (y : Var) :
    ((s.under k).free y).HasFree x ↔ (s.free y).HasFree x := hasFree_rename x (s.free y) (· + k)

lemma hasFree_fill (x : Var) (t : Nameless) (hs : s.Plain) :
    (t.fill s).HasFree x ↔ ∃ y, t.HasFree y ∧ (s.free y).HasFree x := by
  induction t generalizing s with
  | bound i => simpa [fill, HasFree] using hs i x
  | free v | univ | global | stop => simp [fill, HasFree]
  | pi a b iha ihb | lam a b iha ihb =>
    simp only [fill, HasFree, iha hs, ihb (hs.under 1), hasFree_under_free, or_and_right, exists_or]
  | arm ctor arity body rest ihb ihr =>
    simp only [fill, HasFree, ihb (hs.under arity), ihr hs, hasFree_under_free, or_and_right,
      exists_or]
  | app a b iha ihb | ann a b iha ihb | case a b iha ihb =>
    simp only [fill, HasFree, iha hs, ihb hs, or_and_right, exists_or]
  | absurd a ih => simp only [fill, HasFree, ih hs]

end Nameless

mutual

/-- A variable is free in a form if it occurs and no binder on the stack takes it. -/
lemma Term.hasFree_nameless (x : Var) (stack : List Var) : (t : Term) →
    ((t.nameless stack).HasFree x ↔ x ∉ stack ∧ t.occurs x = true)
  | .univ | .global _ => by simp [Term.nameless, HasFree, Term.occurs]
  | .var v => by
    rcases v.locate_cases stack with ⟨hv, hmem⟩ | ⟨i, hv, hmem⟩
    · simp only [Term.nameless, hv, HasFree, Term.occurs, beq_iff_eq]
      exact ⟨fun h => ⟨h ▸ hmem, h⟩, And.right⟩
    · simp only [Term.nameless, hv, HasFree, Term.occurs, beq_iff_eq, false_iff]
      exact fun h => h.1 (h.2 ▸ hmem)
  | .pi v a b | .lam v a b => by
    simp only [Term.nameless, HasFree, Term.hasFree_nameless x stack a,
      Term.hasFree_nameless x (v :: stack) b, Term.occurs]
    grind
  | .app a b | .ann a b => by
    simp only [Term.nameless, HasFree, Term.hasFree_nameless x stack a,
      Term.hasFree_nameless x stack b, Term.occurs, Bool.or_eq_true, and_or_left]
  | .case scrut bs => by
    simp only [Term.nameless, HasFree, Term.hasFree_nameless x stack scrut,
      Branches.hasFree_nameless x stack bs, Term.occurs, Bool.or_eq_true, and_or_left]
  | .absurd scrut => by
    simp only [Term.nameless, HasFree, Term.hasFree_nameless x stack scrut, Term.occurs]

lemma Branches.hasFree_nameless (x : Var) (stack : List Var) : (bs : Branches) →
    ((bs.nameless stack).HasFree x ↔ x ∉ stack ∧ bs.occurs x = true)
  | .nil => by simp [Branches.nameless, HasFree, Branches.occurs]
  | .cons _ fields body rest => by
    simp only [Branches.nameless, HasFree,
      Term.hasFree_nameless x (fields.reverse ++ stack) body,
      Branches.hasFree_nameless x stack rest, Branches.occurs]
    grind

end

lemma Term.occurs_of_nameless_eq {t : Term} (h : t.nameless [] = u.nameless []) (x : Var) :
    t.occurs x = u.occurs x := by
  have ht := t.hasFree_nameless x []
  rw [h, u.hasFree_nameless x []] at ht
  simpa using ht.symm

namespace Subst

variable {σ : Subst} {t : Term}

/-- The values of a substitution are behind a supply. -/
def Behind (n : Nat) (σ : Subst) : Prop := ∀ x u, σ.get? x = some u → u.Over (.below n)

lemma Behind.all (h : σ.Behind n) : σ.All closed.Bounds n := fun x u hu => h x u hu

lemma Behind.mono (h : σ.Behind n) (hnm : n ≤ m) : σ.Behind m :=
  fun x u hu => (h x u hu).mono (below_le hnm)

lemma Behind.nameless_apply (h : σ.Behind n) (ht : t.Over (.below n)) :
    ((σ.apply t).value n).nameless [] = (t.nameless []).fill σ.filling :=
  h.all.nameless closed.hereditary (σ.applied t n) ht

lemma filling_plain (σ : Subst) : σ.filling.Plain := fun _ _ h => h

lemma Behind.occurs_apply (h : σ.Behind n) (ht : t.Over (.below n)) (x : Var) :
    ((σ.apply t).value n).occurs x = true ↔
      ∃ y, t.occurs y = true ∧ (σ.image y).occurs x = true := by
  have hform := ((σ.apply t).value n).hasFree_nameless x []
  rw [h.nameless_apply ht, hasFree_fill x _ σ.filling_plain] at hform
  have hparts : ∀ y, (t.nameless []).HasFree y ∧ (σ.filling.free y).HasFree x ↔
      t.occurs y = true ∧ (σ.image y).occurs x = true := fun y => by
    rw [t.hasFree_nameless y [], filling, (σ.image y).hasFree_nameless x []]
    simp
  simpa [hparts] using hform.symm

lemma Behind.mem_freeVars_apply (h : σ.Behind n) (ht : t.Over (.below n)) (x : Var) :
    x ∈ ((σ.apply t).value n).freeVars ↔
      (x ∈ t.freeVars ∧ σ.contains x = false) ∨
        ∃ y ∈ t.freeVars, ∃ u, σ.get? y = some u ∧ x ∈ u.freeVars := by
  simp only [Term.mem_freeVars, h.occurs_apply ht]
  constructor
  · rintro ⟨y, hy, hx⟩
    cases hget : σ.get? y with
    | some u =>
      rw [Subst.image, image_eq hget] at hx
      exact .inr ⟨y, hy, u, hget, hx⟩
    | none =>
      rw [Subst.image, image_eq_var hget] at hx
      obtain rfl : y = x := by simpa [Term.occurs] using hx
      exact .inl ⟨hy, by simp [contains, hget]⟩
  · rintro (⟨hx, hnone⟩ | ⟨y, hy, u, hget, hx⟩)
    · have hget : σ.get? x = none := by simpa [contains] using hnone
      refine ⟨x, hx, ?_⟩
      rw [Subst.image, image_eq_var hget]
      simp [Term.occurs]
    · refine ⟨y, hy, ?_⟩
      rwa [Subst.image, image_eq hget]

/-- Substitution keeps equality up to bound variables, whatever supplies it is run from. -/
lemma Behind.apply_alphaEq (h : σ.Behind n) (ht : t.Over (.below n)) (htu : t.alphaEq u = true)
    (hm : n ≤ m) : ((σ.apply t).value n).alphaEq ((σ.apply u).value m) = true := by
  have hforms := (t.alphaEq_iff u).1 htu
  have hu : u.Over (.below n) := Term.over_iff_occurs.2 fun x hx =>
    ht.occurs ((Term.occurs_of_nameless_eq hforms x).trans hx)
  rw [Term.alphaEq_iff, h.nameless_apply ht,
    (h.mono hm).nameless_apply (hu.mono (below_le hm)), hforms]

end Subst

/-! ### One map, put back behind every binder -/

/-- A map of values that is changed in place. -/
abbrev Store := Var → Option Term

/-- Computations that take fresh variables and change a map of values. -/
abbrev InPlace := StateT Store Fresh

namespace InPlace

/-- Give a variable a value.  The answer is what it had before. -/
def insert (v : Var) (t : Term) : InPlace (Option Term) :=
  fun values => return (values v, Function.update values v (some t))

/-- Give a variable back what it had before. -/
def restore (v : Var) (previous : Option Term) : InPlace Unit :=
  fun values => return ((), Function.update values v previous)

/-- Give variables other variables as values, and remember what they had, from left to right. -/
def insertAll : List Var → List Var → InPlace (List (Var × Option Term))
  | v :: vs, w :: ws => do
      let previous ← insert v (.var w)
      let saved ← insertAll vs ws
      return (v, previous) :: saved
  | _, _ => return []

/-- Give variables back what they had, from right to left. -/
def restoreAll : List (Var × Option Term) → InPlace Unit
  | [] => return ()
  | (v, previous) :: saved => do
      restoreAll saved
      restore v previous

end InPlace

mutual

/-- Replace variables by their values in one map, which is extended at binders and put back. -/
def Term.assignInPlace : Term → InPlace Term
  | .univ => return .univ
  | .var v => fun values => return ((values v).getD (.var v), values)
  | .global name => return .global name
  | .pi v dom cod => do
      let dom ← dom.assignInPlace
      let w ← v.refresh
      let previous ← InPlace.insert v (.var w)
      let cod ← cod.assignInPlace
      InPlace.restore v previous
      return .pi w dom cod
  | .lam v dom body => do
      let dom ← dom.assignInPlace
      let w ← v.refresh
      let previous ← InPlace.insert v (.var w)
      let body ← body.assignInPlace
      InPlace.restore v previous
      return .lam w dom body
  | .app head arg => do
      let head ← head.assignInPlace
      let arg ← arg.assignInPlace
      return .app head arg
  | .ann term type => do
      let term ← term.assignInPlace
      let type ← type.assignInPlace
      return .ann term type
  | .case scrut branches => do
      let scrut ← scrut.assignInPlace
      let branches ← branches.assignInPlace
      return .case scrut branches
  | .absurd scrut => do
      let scrut ← scrut.assignInPlace
      return .absurd scrut

def Branches.assignInPlace : Branches → InPlace Branches
  | .nil => return .nil
  | .cons ctor fields body rest => do
      let renamed ← Var.refreshAll fields
      let saved ← InPlace.insertAll fields renamed
      let body ← body.assignInPlace
      InPlace.restoreAll saved
      let rest ← rest.assignInPlace
      return .cons ctor renamed body rest

end

namespace InPlace

variable {α β : Type} (values : Store) (n : Nat)

lemma pure_apply (a : α) : (pure a : InPlace α) values n = ((a, values), n) := rfl

lemma bind_apply (x : InPlace α) (f : α → InPlace β) :
    (x >>= f) values n = f (x values n).1.1 (x values n).1.2 (x values n).2 := rfl

lemma lift_apply (x : Fresh α) :
    (liftM x : InPlace α) values n = ((x.value n, values), x.next n) := rfl

lemma insert_apply (v : Var) (t : Term) :
    insert v t values n = ((values v, Function.update values v (some t)), n) := rfl

lemma restore_apply (v : Var) (previous : Option Term) :
    restore v previous values n = (((), Function.update values v previous), n) := rfl

end InPlace

lemma Assignment.get?_bind_one (σ : Assignment) (v w : Var) :
    get? (σ.bind [v] [w]) = Function.update σ.get? v (some (.var w)) := by
  funext x
  by_cases hx : v = x
  · subst hx
    simp [bind, get?]
  · simp [bind, get?, hx, Function.update_of_ne (Ne.symm hx)]

namespace InPlace

lemma restore_insert (values : Store) (v : Var) (t : Option Term) :
    Function.update (Function.update values v t) v (values v) = values := by
  rw [Function.update_idem, Function.update_eq_self]

lemma insertAll_restoreAll (σ : Assignment) (hlen : vs.length = ws.length)
    (n : Nat) :
    ∃ saved, insertAll vs ws σ.get? n = ((saved, get? (σ.bind vs ws)), n) ∧
      ∀ m, restoreAll saved (get? (σ.bind vs ws)) m = (((), σ.get?), m) := by
  induction vs generalizing ws σ with
  | nil =>
    exact ⟨[], rfl, fun _ => rfl⟩
  | cons v vs ih =>
    cases ws with
    | nil => simp at hlen
    | cons w ws =>
      obtain ⟨saved, hinsert, hrestore⟩ := ih (σ.bind [v] [w]) (by simpa using hlen)
      rw [bind_cons]
      refine ⟨(v, σ.get? v) :: saved, ?_, fun m => ?_⟩
      · simp only [insertAll, bind_apply, insert_apply, pure_apply, ← get?_bind_one, hinsert]
      · simp only [restoreAll, bind_apply, restore_apply, hrestore m, get?_bind_one, restore_insert]

end InPlace

mutual

/-- With one map that is put back, substitution gives the same from every supply, and the map is
left as it was. -/
lemma Term.assignInPlace_eq (σ : Assignment) (n : Nat) : (t : Term) →
    t.assignInPlace σ.get? n = (((t.assign σ).value n, σ.get?), (t.assign σ).next n)
  | .univ | .var _ | .global _ => rfl
  | .pi v dom cod | .lam v dom cod => by
    simp only [Term.assignInPlace, Term.assign, InPlace.bind_apply, InPlace.lift_apply,
      InPlace.insert_apply, InPlace.restore_apply, InPlace.pure_apply, value_bind,
      next_bind, value_pure, next_pure, Term.assignInPlace_eq σ n dom,
      ← get?_bind_one, Term.assignInPlace_eq (σ.bind _ _) _ cod]
    rw [get?_bind_one, InPlace.restore_insert]
  | .app head arg | .ann head arg => by
    simp only [Term.assignInPlace, Term.assign, InPlace.bind_apply, InPlace.pure_apply,
      value_bind, next_bind, value_pure, next_pure,
      Term.assignInPlace_eq σ _ head, Term.assignInPlace_eq σ _ arg]
  | .case scrut branches => by
    simp only [Term.assignInPlace, Term.assign, InPlace.bind_apply, InPlace.pure_apply,
      value_bind, next_bind, value_pure, next_pure,
      Term.assignInPlace_eq σ _ scrut, Branches.assignInPlace_eq σ _ branches]
  | .absurd scrut => by
    simp only [Term.assignInPlace, Term.assign, InPlace.bind_apply, InPlace.pure_apply,
      value_bind, next_bind, value_pure, next_pure,
      Term.assignInPlace_eq σ _ scrut]

lemma Branches.assignInPlace_eq (σ : Assignment) (n : Nat) : (bs : Branches) →
    bs.assignInPlace σ.get? n = (((bs.assign σ).value n, σ.get?), (bs.assign σ).next n)
  | .nil => rfl
  | .cons ctor fields body rest => by
    obtain ⟨saved, hinsert, hrestore⟩ := InPlace.insertAll_restoreAll σ
      (Var.refreshAll_length fields n).symm ((Var.refreshAll fields).next n)
    simp only [Branches.assignInPlace, Branches.assign, InPlace.bind_apply, InPlace.lift_apply,
      InPlace.pure_apply, value_bind, next_bind, value_pure, next_pure,
      hinsert, Term.assignInPlace_eq _ _ body, hrestore, Branches.assignInPlace_eq σ _ rest]

end

/-! ### The main statement -/

/-- Substitution is simultaneous substitution that captures nothing.  It fills the free variables of
the form, keeps equality up to bound variables, and has the free variables one expects; and one map
that is changed at binders and put back does the same. -/
theorem Subst.apply_captureAvoiding {σ : Subst} {n : Nat} {t : Term} (hσ : σ.Behind n)
    (ht : t.Over (.below n)) :
    ((σ.apply t).value n).nameless [] = (t.nameless []).fill σ.filling ∧
    (∀ u, t.alphaEq u = true → ∀ m ≥ n,
      ((σ.apply t).value n).alphaEq ((σ.apply u).value m) = true) ∧
    (∀ x, x ∈ ((σ.apply t).value n).freeVars ↔
      (x ∈ t.freeVars ∧ σ.contains x = false) ∨
        ∃ y ∈ t.freeVars, ∃ u, σ.get? y = some u ∧ x ∈ u.freeVars) ∧
    (∀ (u : Term) (x : Var), u.occurs x = true ↔ x ∈ u.freeVars) ∧
    (∀ (τ : Assignment) (u : Term) (k : Nat),
      u.assignInPlace τ.get? k = (((u.assign τ).value k, τ.get?), (u.assign τ).next k)) ∧
    ∀ (τ : Assignment) (bs : Branches) (k : Nat),
      bs.assignInPlace τ.get? k = (((bs.assign τ).value k, τ.get?), (bs.assign τ).next k) :=
  ⟨hσ.nameless_apply ht, fun _ htu _ hm => hσ.apply_alphaEq ht htu hm, hσ.mem_freeVars_apply ht,
    fun _ _ => Term.mem_freeVars.symm, fun τ u k => u.assignInPlace_eq τ k,
    fun τ bs k => bs.assignInPlace_eq τ k⟩

namespace CaptureAvoidance

def x : Var := ⟨0, "x"⟩

def y : Var := ⟨1, "y"⟩

/-- Two variables change places. -/
def swap : Subst := ⟨[(x, .var y), (y, .var x)]⟩

lemma swap_behind : swap.Behind 2 := by
  intro v u hu
  simp only [swap, Subst.get?, get?, List.find?_cons] at hu
  split at hu
  · cases hu
    exact Nat.lt_succ_self 1
  · split at hu
    · cases hu
      exact Nat.zero_lt_succ 1
    · cases hu

/-- `fun (y : Type) => case x of { pair y y => y x }` -/
def split : Term :=
  .lam y .univ (.case (.var x) (.cons "pair" [y, y] (.app (.var y) (.var x)) .nil))

/-- The binders make way for the value of `x`, and the second field of the branch counts. -/
theorem swap_captureAvoiding :
    swap.Behind 2 ∧ split.Over (.below 2) ∧
    (swap.apply split).value 2 = .lam ⟨2, "y"⟩ .univ (.case (.var y)
      (.cons "pair" [⟨3, "y"⟩, ⟨4, "y"⟩] (.app (.var ⟨4, "y"⟩) (.var y)) .nil)) ∧
    ((swap.apply split).value 2).nameless [] = (split.nameless []).fill swap.filling ∧
    (∀ v, v ∈ ((swap.apply split).value 2).freeVars ↔
      (v ∈ split.freeVars ∧ swap.contains v = false) ∨
        ∃ w ∈ split.freeVars, ∃ u, swap.get? w = some u ∧ v ∈ u.freeVars) := by
  have ht : split.Over (.below 2) := by
    simp [split, x, y, Term.Over, Branches.Over, Reach.bind, Reach.below]
  have h := Subst.apply_captureAvoiding swap_behind ht
  exact ⟨swap_behind, ht, by decide, h.1, h.2.2.1⟩

end CaptureAvoidance

end Clausal
