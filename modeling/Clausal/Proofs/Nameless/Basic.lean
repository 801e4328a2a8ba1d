import Clausal.Var
import Mathlib.Data.List.Induction

/-!
# Terms without names for bound variables

A bound variable is the number of binders between it and its own; a free variable
keeps its identity.  The arms of a case split are kept in the same type as terms,
ended by `stop`.  `fill` replaces free and bound variables at once; renaming and the
instantiation of binders are instances of it.
-/

namespace Clausal

open List

variable (t : Nameless)

inductive Nameless where
  | univ
  | bound (i : Nat)
  | free (v : Var)
  | global (name : Name)
  | pi (dom cod : Nameless)
  | lam (dom body : Nameless)
  | app (head arg : Nameless)
  | ann (term type : Nameless)
  | case (scrut arms : Nameless)
  | absurd (scrut : Nameless)
  /-- The end of the arms of a case split. -/
  | stop
  /-- An arm binds as many variables as the constructor has fields. -/
  | arm (ctor : Name) (arity : Nat) (body rest : Nameless)
deriving DecidableEq, Inhabited

/-- Values for the free and the bound variables of a term. -/
@[ext]
structure Filling where
  free : Var → Nameless
  bound : Nat → Nameless

namespace Nameless

/-- A renaming below `k` binders. -/
def lift (k : Nat) (ρ : Nat → Nat) (i : Nat) : Nat :=
  if i < k then i else ρ (i - k) + k

/-- Rename the bound variables of binders around a term. -/
def rename (ρ : Nat → Nat) : Nameless → Nameless
  | univ => univ
  | bound i => bound (ρ i)
  | free v => free v
  | global name => global name
  | pi dom cod => pi (dom.rename ρ) (cod.rename (lift 1 ρ))
  | lam dom body => lam (dom.rename ρ) (body.rename (lift 1 ρ))
  | app head arg => app (head.rename ρ) (arg.rename ρ)
  | ann term type => ann (term.rename ρ) (type.rename ρ)
  | case scrut arms => case (scrut.rename ρ) (arms.rename ρ)
  | absurd scrut => absurd (scrut.rename ρ)
  | stop => stop
  | arm ctor arity body rest => arm ctor arity (body.rename (lift arity ρ)) (rest.rename ρ)

/-- The same term below `k` more binders. -/
def shift (k : Nat) (t : Nameless) : Nameless := t.rename (· + k)

end Nameless

open Nameless

namespace Filling

/-- Every variable stands for itself. -/
def id : Filling := ⟨Nameless.free, Nameless.bound⟩

/-- The same values below `k` binders, whose own variables are kept. -/
def under (k : Nat) (s : Filling) : Filling where
  free v := (s.free v).shift k
  bound i := if i < k then .bound i else (s.bound (i - k)).shift k

end Filling

namespace Nameless

/-- Replace free and bound variables by their values. -/
def fill (s : Filling) : Nameless → Nameless
  | univ => univ
  | bound i => s.bound i
  | free v => s.free v
  | global name => global name
  | pi dom cod => pi (dom.fill s) (cod.fill (s.under 1))
  | lam dom body => lam (dom.fill s) (body.fill (s.under 1))
  | app head arg => app (head.fill s) (arg.fill s)
  | ann term type => ann (term.fill s) (type.fill s)
  | case scrut arms => case (scrut.fill s) (arms.fill s)
  | absurd scrut => absurd (scrut.fill s)
  | stop => stop
  | arm ctor arity body rest => arm ctor arity (body.fill (s.under arity)) (rest.fill s)

end Nameless

namespace Filling

/-- First `s`, then `r`. -/
def andThen (s r : Filling) : Filling where
  free v := (s.free v).fill r
  bound i := (s.bound i).fill r

/-- Rename the bound variables in all values. -/
def rename (ρ : Nat → Nat) (s : Filling) : Filling where
  free v := (s.free v).rename ρ
  bound i := (s.bound i).rename ρ

/-- The values of the innermost binders, from the inside out. -/
def values (vs : List Nameless) : Filling where
  free := Nameless.free
  bound i := vs.getD i (.bound (i - vs.length))

end Filling

namespace Nameless

/-- Give the innermost binders their values, from the inside out. -/
def instantiate (t : Nameless) (vs : List Nameless) : Nameless := t.fill (.values vs)

/-- Apply a head to arguments, from left to right. -/
def apps (head : Nameless) (args : List Nameless) : Nameless := args.foldl .app head

/-- The number of variables of an arm and its body. -/
def arm? (name : Name) : Nameless → Option (Nat × Nameless)
  | arm ctor arity body rest => if ctor = name then some (arity, body) else rest.arm? name
  | _ => none

attribute [local simp] rename fill arm?

/-! ### Renaming -/

lemma lift_id (k : Nat) : lift k id = id := by
  funext i
  by_cases h : i < k
  · simp [lift, h]
  · simp only [lift, h, if_false, id_eq]
    omega

lemma lift_lift (k : Nat) (ρ τ : Nat → Nat) (i : Nat) :
    lift k τ (lift k ρ i) = lift k (fun j => τ (ρ j)) i := by
  by_cases h : i < k
  · simp [lift, h]
  · have hge : ¬ ρ (i - k) + k < k := by omega
    simp only [lift, h, if_false, hge]
    rw [Nat.add_sub_cancel]

lemma lift_add (k : Nat) (ρ : Nat → Nat) (i : Nat) : lift k ρ (i + k) = ρ i + k := by
  have hge : ¬ i + k < k := by omega
  simp only [lift, hge, if_false]
  rw [Nat.add_sub_cancel]

lemma rename_id : t.rename id = t := by
  induction t with
  | pi dom cod ihd ihc | lam dom cod ihd ihc => simp only [rename, lift_id, ihd, ihc]
  | arm ctor arity body rest ihb ihr => simp only [rename, lift_id, ihb, ihr]
  | _ => simp_all [rename]

lemma rename_rename (ρ τ : Nat → Nat) : (t.rename ρ).rename τ = t.rename (fun i => τ (ρ i)) := by
  induction t generalizing ρ τ with
  | pi dom cod ihd ihc | lam dom cod ihd ihc =>
    simp only [rename, ihd, ihc]
    congr 2
    funext i
    exact lift_lift 1 ρ τ i
  | arm ctor arity body rest ihb ihr =>
    simp only [rename, ihb, ihr]
    congr 2
    funext i
    exact lift_lift arity ρ τ i
  | _ => simp_all [rename]

lemma shift_rename_lift (k : Nat) (ρ : Nat → Nat) :
    (t.shift k).rename (lift k ρ) = (t.rename ρ).shift k := by
  rw [shift, shift, rename_rename, rename_rename]
  congr 1
  funext i
  exact lift_add k ρ i

/-! ### Filling -/

lemma under_id (k : Nat) : Filling.id.under k = Filling.id := by
  ext i
  · rfl
  · by_cases h : i < k
    · simp [Filling.under, Filling.id, h]
    · simp only [Filling.under, Filling.id, h, if_false, shift, rename]
      congr 1
      omega

lemma fill_id : t.fill .id = t := by
  induction t with
  | pi dom cod ihd ihc | lam dom cod ihd ihc => simp only [fill, under_id, ihd, ihc]
  | arm ctor arity body rest ihb ihr => simp only [fill, under_id, ihb, ihr]
  | bound | free => rfl
  | _ => simp_all [fill]

lemma under_bound_lift (s : Filling) (k : Nat) (ρ : Nat → Nat) (i : Nat) :
    (s.under k).bound (lift k ρ i) =
      (Filling.under k ⟨s.free, fun j => s.bound (ρ j)⟩).bound i := by
  by_cases h : i < k
  · simp [Filling.under, lift, h]
  · have hge : ¬ ρ (i - k) + k < k := by omega
    simp only [Filling.under, lift, h, if_false, hge]
    rw [Nat.add_sub_cancel]

lemma fill_rename (ρ : Nat → Nat) (s : Filling) :
    (t.rename ρ).fill s = t.fill ⟨s.free, fun i => s.bound (ρ i)⟩ := by
  induction t generalizing ρ s with
  | pi dom cod ihd ihc | lam dom cod ihd ihc =>
    simp only [rename, fill, ihd, ihc, under_bound_lift]
    rfl
  | arm ctor arity body rest ihb ihr =>
    simp only [rename, fill, ihb, ihr, under_bound_lift]
    rfl
  | _ => simp_all [rename, fill]

lemma rename_under (s : Filling) (k : Nat) (ρ : Nat → Nat) :
    (s.under k).rename (lift k ρ) = (s.rename ρ).under k := by
  ext i
  · exact shift_rename_lift _ k ρ
  · by_cases h : i < k
    · simp [Filling.under, Filling.rename, rename, lift, h]
    · simp only [Filling.under, Filling.rename, h, if_false]
      exact shift_rename_lift _ k ρ

lemma rename_fill (s : Filling) (ρ : Nat → Nat) : (t.fill s).rename ρ = t.fill (s.rename ρ) := by
  induction t generalizing s ρ with
  | pi dom cod ihd ihc | lam dom cod ihd ihc => simp only [rename, fill, ihd, ihc, rename_under]
  | arm ctor arity body rest ihb ihr => simp only [rename, fill, ihb, ihr, rename_under]
  | bound | free => rfl
  | _ => simp_all [rename, fill]

lemma shift_fill_under (s : Filling) (k : Nat) :
    (t.shift k).fill (s.under k) = (t.fill s).shift k := by
  rw [shift, shift, fill_rename, rename_fill]
  congr 1
  ext i
  · rfl
  · have hge : ¬ i + k < k := by omega
    simp only [Filling.under, hge, if_false, rename]
    rw [Nat.add_sub_cancel]
    rfl

lemma andThen_under (s r : Filling) (k : Nat) :
    (s.under k).andThen (r.under k) = (s.andThen r).under k := by
  ext i
  · exact shift_fill_under _ r k
  · by_cases h : i < k
    · simp [Filling.under, Filling.andThen, fill, h]
    · simp only [Filling.andThen, Filling.under, h, if_false]
      exact shift_fill_under _ r k

lemma fill_fill (s r : Filling) : (t.fill s).fill r = t.fill (s.andThen r) := by
  induction t generalizing s r with
  | pi dom cod ihd ihc | lam dom cod ihd ihc => simp only [fill, ihd, ihc, andThen_under]
  | arm ctor arity body rest ihb ihr => simp only [fill, ihb, ihr, andThen_under]
  | bound | free => rfl
  | _ => simp_all [fill]

lemma rename_eq_fill (ρ : Nat → Nat) :
    t.rename ρ = t.fill ⟨Nameless.free, fun i => Nameless.bound (ρ i)⟩ := by
  have h := fill_rename t ρ .id
  rwa [fill_id] at h

/-! ### Values for the innermost binders -/

lemma shift_instantiate (vs : List Nameless) : (t.shift vs.length).instantiate vs = t := by
  have hid : (⟨.free, fun i => (Filling.values vs).bound (i + vs.length)⟩ : Filling) =
      .id := by
    ext i
    · rfl
    · simp [Filling.values, Filling.id, getD]
  rw [shift, instantiate, fill_rename]
  exact (congrArg (fill · t) hid).trans (fill_id t)

lemma values_andThen (vs : List Nameless) (s : Filling) :
    (Filling.values vs).andThen s =
      (s.under vs.length).andThen (.values (vs.map (Nameless.fill s))) := by
  have hshift : ∀ t : Nameless,
      (t.shift vs.length).fill (.values (vs.map (fill s))) = t := by
    intro t
    have h := shift_instantiate t (vs.map (.fill s))
    rwa [length_map] at h
  ext i
  · exact (hshift (s.free i)).symm
  · by_cases h : i < vs.length
    · simp [Filling.andThen, Filling.values, Filling.under, fill, h, getD]
    · have hge : vs.length ≤ i := by omega
      simp only [Filling.andThen, Filling.values, Filling.under, h, if_false]
      rw [getD_eq_getElem?_getD, getElem?_eq_none hge]
      exact (hshift (s.bound (i - vs.length))).symm

lemma fill_instantiate (vs : List Nameless) (s : Filling) : (t.instantiate vs).fill s =
      (t.fill (s.under vs.length)).instantiate (vs.map (Nameless.fill s)) := by
  rw [instantiate, instantiate, fill_fill, fill_fill, values_andThen]

lemma rename_instantiate_bound : (t.rename (lift 1 (· + 1))).instantiate [bound 0] = t := by
  have hid : (⟨free, fun i => (Filling.values [bound 0]).bound (lift 1 (· + 1) i)⟩ :
      Filling) = .id := by
    ext i
    · rfl
    · cases i with
      | zero => rfl
      | succ i => simp [Filling.values, Filling.id, lift]
  rw [instantiate, fill_rename]
  exact (congrArg (fill · t) hid).trans (fill_id t)

lemma eta_instantiate (x : Nameless) : (app (t.shift 1) (bound 0)).instantiate [x] = app t x := by
  have ht := shift_instantiate t [x]
  exact congrArg (app · x) ht

lemma shift_inj {t : Nameless} (h : t.shift k = u.shift k) : t = u := by
  have ht := shift_instantiate t (.replicate k univ)
  have hu := shift_instantiate u (.replicate k univ)
  rw [length_replicate] at ht hu
  rw [← ht, ← hu, h]

lemma shift_zero : t.shift 0 = t := rename_id t

lemma shift_shift (j k : Nat) : (t.shift j).shift k = t.shift (j + k) := by
  rw [shift, shift, rename_rename]
  congr 1
  funext i
  omega

/-! ### Spines and arms -/

lemma apps_append (head : Nameless) (xs ys : List Nameless) :
    head.apps (xs ++ ys) = (head.apps xs).apps ys := foldl_append ..

lemma apps_concat (head : Nameless) (xs : List Nameless) (x : Nameless) :
    head.apps (xs ++ [x]) = .app (head.apps xs) x := by rw [apps_append]; rfl

/-- The head and the arguments can be read off an application. -/
lemma global_apps_inj (heq : (global g).apps xs = (global h).apps ys) : g = h ∧ xs = ys := by
  induction xs using reverseRecOn generalizing ys with
  | nil =>
    rcases eq_nil_or_concat ys with rfl | ⟨ys, y, rfl⟩
    · exact ⟨by simpa [apps] using heq, rfl⟩
    · simp [apps] at heq
  | append_singleton xs x ih =>
    rcases eq_nil_or_concat ys with rfl | ⟨ys, y, rfl⟩
    · simp [apps] at heq
    · rw [concat_eq_append, apps_concat, apps_concat, app.injEq] at heq
      obtain ⟨rfl, rfl⟩ := ih heq.1
      exact ⟨rfl, by rw [concat_eq_append, heq.2]⟩

lemma fill_apps (head : Nameless) (args : List Nameless) (s : Filling) :
    (head.apps args).fill s = (head.fill s).apps (args.map (Nameless.fill s)) := by
  induction args generalizing head with
  | nil => rfl
  | cons arg args ih => exact ih (.app head arg)

lemma arm?_fill (name : Name) (arms : Nameless) (s : Filling)
    (h : arms.arm? name = some (k, body)) :
    (arms.fill s).arm? name = some (k, body.fill (s.under k)) := by
  induction arms with
  | arm ctor arity b rest _ ihr =>
    simp only [arm?, fill] at h ⊢
    split at h
    · next hc =>
        obtain ⟨rfl, rfl⟩ := h
        rw [if_pos hc]
    · next hc =>
        rw [if_neg hc]
        exact ihr h
  | _ => simp [arm?] at h

/-- A term that no filling changes. -/
def Closed (t : Nameless) : Prop := ∀ s, t.fill s = t

end Nameless
end Clausal
