import Clausal.Proofs.Run
import Clausal.Subst

/-!
# Computations from a later supply

A computation that starts from a later supply does the same, with the variables
that it takes moved along.
-/

namespace Clausal

open Eval List

variable {t : Term}

/-! ### Variables of terms -/

mutual

/-- Rename every variable of a term, free or bound. -/
def Term.mapVars (f : Var → Var) : Term → Term
  | .univ => .univ
  | .var v => .var (f v)
  | .global name => .global name
  | .pi v a b => .pi (f v) (a.mapVars f) (b.mapVars f)
  | .lam v a b => .lam (f v) (a.mapVars f) (b.mapVars f)
  | .app a b => .app (a.mapVars f) (b.mapVars f)
  | .ann a b => .ann (a.mapVars f) (b.mapVars f)
  | .case scrut branches => .case (scrut.mapVars f) (branches.mapVars f)
  | .absurd scrut => .absurd (scrut.mapVars f)

def Branches.mapVars (f : Var → Var) : Branches → Branches
  | .nil => .nil
  | .cons ctor fields body rest => .cons ctor (fields.map f) (body.mapVars f) (rest.mapVars f)

end

mutual

lemma Term.mapVars_mapVars (f g : Var → Var) : (t : Term) →
    (t.mapVars f).mapVars g = t.mapVars fun x => g (f x)
  | .univ | .var _ | .global _ => rfl
  | .pi _ a b | .lam _ a b | .app a b | .ann a b | .case a b => by
    simp only [Term.mapVars, a.mapVars_mapVars f g, b.mapVars_mapVars f g]
  | .absurd scrut => by simp only [Term.mapVars, scrut.mapVars_mapVars f g]

lemma Branches.mapVars_mapVars (f g : Var → Var) : (bs : Branches) →
    (bs.mapVars f).mapVars g = bs.mapVars fun x => g (f x)
  | .nil => rfl
  | .cons _ _ body rest => by
    simp only [Branches.mapVars, body.mapVars_mapVars f g, rest.mapVars_mapVars f g,
      map_map, Function.comp_def]

end

mutual

@[simp] lemma Term.mapVars_id : (t : Term) → t.mapVars id = t
  | .univ | .var _ | .global _ => rfl
  | .pi _ a b | .lam _ a b | .app a b | .ann a b | .case a b => by
    simp only [Term.mapVars, id_eq, a.mapVars_id, b.mapVars_id]
  | .absurd scrut => by rw [Term.mapVars, scrut.mapVars_id]

@[simp] lemma Branches.mapVars_id : (bs : Branches) → bs.mapVars id = bs
  | .nil => rfl
  | .cons _ _ body rest => by
    rw [Branches.mapVars, body.mapVars_id, rest.mapVars_id, map_id]

end

/-! ### A later supply -/

/-- The variables from `start` on are moved by `gap`. -/
structure Slide where
  start : Nat
  gap : Nat

namespace Slide

variable (s : Slide)

def var (x : Var) : Var := if x.id < s.start then x else ⟨x.id + s.gap, x.name⟩

def back (x : Var) : Var := if x.id < s.start then x else ⟨x.id - s.gap, x.name⟩

lemma back_var (x : Var) : s.back (s.var x) = x := by
  unfold var
  split
  next h => simp [back, h]
  next h =>
    have hnot : ¬ x.id + s.gap < s.start := by omega
    simp [back, hnot]

lemma var_inj : s.var x = s.var y ↔ x = y :=
  ⟨fun h => by rw [← s.back_var x, h, s.back_var], fun h => by rw [h]⟩

lemma var_beq (x y : Var) : (s.var x == s.var y) = (x == y) := by
  rw [Bool.eq_iff_iff, beq_iff_eq, beq_iff_eq, s.var_inj]

lemma var_old (h : x.id < s.start) : s.var x = x := if_pos h

lemma var_new (h : s.start ≤ k) (name : Name) : s.var ⟨k, name⟩ = ⟨k + s.gap, name⟩ :=
  if_neg (not_lt.2 h)

lemma var_name (x : Var) : (s.var x).name = x.name := by
  unfold var
  split <;> rfl

lemma term_inj {u : Term} : t.mapVars s.var = u.mapVars s.var ↔ t = u := by
  refine ⟨fun h => ?_, fun h => by rw [h]⟩
  have hid : (fun x => s.back (s.var x)) = id := funext s.back_var
  have hback := congrArg (Term.mapVars s.back) h
  rwa [Term.mapVars_mapVars, Term.mapVars_mapVars, hid, Term.mapVars_id, Term.mapVars_id] at hback

/-- The slide that moves nothing. -/
def still : Slide := ⟨0, 0⟩

@[simp] lemma var_still : still.var = id := rfl

end Slide

/-- From a later supply the one computation does what the other does. -/
def Fresh.Slides {α β : Type} (s : Slide) (φ : α → β) (x : Fresh α) (y : Fresh β) : Prop :=
  ∀ k, s.start ≤ k → k ≤ x.next k ∧ y.run (k + s.gap) = (φ (x.value k), x.next k + s.gap)

namespace Fresh.Slides

variable {α β γ δ : Type}

protected lemma pure (a : α) (h : φ a = b) : Fresh.Slides s φ (pure a) (pure b) :=
  fun k _ => ⟨le_refl k, by rw [← h]; rfl⟩

protected lemma bind {x : Fresh α} (hx : Fresh.Slides s φ x y)
    (hf : ∀ a, Fresh.Slides s ψ (f a) (g (φ a))) : Fresh.Slides s ψ (x >>= f) (y >>= g) := by
  intro k hk
  obtain ⟨hle, hrun⟩ := hx k hk
  obtain ⟨hle', hrun'⟩ := hf (x.value k) (x.next k) (by omega)
  refine ⟨hle.trans hle', ?_⟩
  change (g (y.run (k + s.gap)).1).run (y.run (k + s.gap)).2 = _
  rw [hrun]
  exact hrun'

protected lemma map {x : Fresh α} {f : α → γ} {g : β → δ} (hx : Fresh.Slides s φ x y)
    (hf : ∀ a, ψ (f a) = g (φ a)) : Fresh.Slides s ψ (f <$> x) (g <$> y) := by
  rw [← bind_pure_comp, ← bind_pure_comp]
  exact hx.bind fun a => .pure (f a) (hf a)

lemma fresh (name : Name) : Fresh.Slides s s.var (Var.fresh name) (Var.fresh name) := by
  intro k hk
  refine ⟨Nat.le_succ k, ?_⟩
  rw [value_fresh, next_fresh, s.var_new hk, Nat.add_right_comm]
  rfl

lemma refresh (v : Var) : Fresh.Slides s s.var v.refresh (s.var v).refresh := by
  rw [Var.refresh, Var.refresh, s.var_name]
  exact fresh v.name

lemma refreshAll : (vs : List Var) →
    Fresh.Slides s (List.map s.var) (Var.refreshAll vs) (Var.refreshAll (vs.map s.var))
  | [] => .pure _ rfl
  | v :: vs => (refresh v).bind fun _ => (refreshAll vs).bind fun _ => .pure _ rfl

lemma mapM (h : ∀ a, Fresh.Slides s ψ (f a) (g (φ a))) (as : List α) :
    Fresh.Slides s (List.map ψ) (as.mapM f) ((as.map φ).mapM g) := by
  induction as with
  | nil => exact .pure _ rfl
  | cons a as ih =>
    rw [mapM_cons, map_cons, mapM_cons]
    exact (h a).bind fun c => ih.bind fun cs => .pure _ rfl

end Fresh.Slides

/-- The same for computations that may run out of fuel. -/
structure Eval.Slides {α β : Type} (s : Slide) (φ : α → β) (x : Eval α) (y : Eval β) : Prop where
  forward : ∀ ⦃k : Nat⦄ ⦃a : α⦄ ⦃m : Nat⦄, s.start ≤ k → Returns x k a m → k ≤ m
  run : ∀ k, s.start ≤ k → y (k + s.gap) = (x k).map fun p => (φ p.1, p.2 + s.gap)

namespace Eval.Slides

variable {α β γ δ : Type}

protected lemma pure (a : α) (h : φ a = b) : Slides s φ (pure a) (pure b) where
  forward _ _ _ _ hrun := le_of_eq (returns_pure.1 hrun).2
  run _ _ := by rw [← h]; rfl

protected lemma outOfFuel : Slides s φ outOfFuel outOfFuel where
  forward _ _ _ _ hrun := (returns_outOfFuel hrun).elim
  run _ _ := rfl

protected lemma lift {x : Fresh α} {y : Fresh β} (hx : Fresh.Slides s φ x y) :
    Slides s φ (liftM x) (liftM y) where
  forward k _ _ hk hrun := (returns_lift.1 hrun).2 ▸ (hx k hk).1
  run k hk := congrArg some (hx k hk).2

protected lemma bind {x : Eval α}
    (hx : Slides s φ x y) (hf : ∀ a, Slides s ψ (f a) (g (φ a))) :
    Slides s ψ (x >>= f) (y >>= g) where
  forward k c m hk hrun := by
    obtain ⟨a, l, ha, hc⟩ := returns_bind.1 hrun
    have hl := hx.forward hk ha
    exact hl.trans ((hf a).forward (hk.trans hl) hc)
  run k hk := by
    change (y (k + s.gap)).bind (fun p => g p.1 p.2) = ((x k).bind fun p => f p.1 p.2).map _
    rw [hx.run k hk]
    cases hrun : x k with
    | none => rfl
    | some p =>
      exact (hf p.1).run p.2 (hk.trans (hx.forward hk hrun))

/-- A computation that is moved from any supply on leaves no supply behind it. -/
lemma toForward {x : Eval α} (h : Slides .still φ x y) :
    Forward x := fun n _ _ => h.forward (Nat.zero_le n)

end Eval.Slides

/-! ### Substitution -/

section

variable (s : Slide)

/-- Rename every variable of an assignment. -/
def Assignment.mapVars (f : Var → Var) (σ : Assignment) : Assignment :=
  σ.map (Prod.map f (Term.mapVars f))

lemma Assignment.get?_slide (σ : Assignment) (v : Var) :
    (σ.mapVars s.var).get? (s.var v) = (σ.get? v).map (Term.mapVars s.var) := by
  induction σ with
  | nil => rfl
  | cons entry σ ih =>
    simp only [mapVars, get?, map_cons, find?_cons, Prod.map_fst, s.var_beq] at ⊢
    split
    · rfl
    · exact ih

lemma Assignment.bind_slide (σ : Assignment) (vs ws : List Var) :
    (σ.bind vs ws).mapVars s.var = (σ.mapVars s.var).bind (vs.map s.var) (ws.map s.var) := by
  simp only [mapVars, bind, map_append, map_reverse, map_map, zip_map]
  congr 2
  rw [zip_map_right, map_map]
  rfl

mutual

/-- Substitution commutes with a slide, by induction on the term. -/
lemma Term.assign_slides (σ : Assignment) : (t : Term) →
    Fresh.Slides s (Term.mapVars s.var) (t.assign σ) ((t.mapVars s.var).assign (σ.mapVars s.var))
  | .univ => .pure _ rfl
  | .var v => .pure _ (by
      rw [σ.get?_slide s]
      cases σ.get? v <;> rfl)
  | .global _ => .pure _ rfl
  | .pi v dom cod | .lam v dom cod =>
    (dom.assign_slides σ).bind fun _ => (Fresh.Slides.refresh v).bind fun w => by
      have hcod := cod.assign_slides (σ.bind [v] [w])
      exact hcod.bind fun _ => .pure _ rfl
  | .app head arg | .ann head arg | .case head arg =>
    (head.assign_slides σ).bind fun _ => (arg.assign_slides σ).bind fun _ => .pure _ rfl
  | .absurd scrut => (scrut.assign_slides σ).bind fun _ => .pure _ rfl

lemma Branches.assign_slides (σ : Assignment) : (bs : Branches) →
    Fresh.Slides s (Branches.mapVars s.var) (bs.assign σ)
      ((bs.mapVars s.var).assign (σ.mapVars s.var))
  | .nil => .pure _ rfl
  | .cons ctor fields body rest =>
    (Fresh.Slides.refreshAll fields).bind fun renamed => by
      have hbody := body.assign_slides (σ.bind fields renamed)
      rw [σ.bind_slide s] at hbody
      exact hbody.bind fun _ => (rest.assign_slides σ).bind fun _ => .pure _ rfl

end

namespace Subst

/-- Rename every variable of a substitution. -/
def mapVars (f : Var → Var) (σ : Subst) : Subst := ⟨σ.entries.mapVars f⟩

lemma get?_slide (σ : Subst) (v : Var) :
    (σ.mapVars s.var).get? (s.var v) = (σ.get? v).map (Term.mapVars s.var) :=
  σ.entries.get?_slide s v

lemma contains_slide (σ : Subst) (v : Var) :
    (σ.mapVars s.var).contains (s.var v) = σ.contains v := by
  rw [contains, get?_slide, Option.isSome_map, contains]

lemma apply_slides (σ : Subst) (t : Term) :
    Fresh.Slides s (Term.mapVars s.var) (σ.apply t)
      ((σ.mapVars s.var).apply (t.mapVars s.var)) := by
  have hempty : (σ.mapVars s.var).isEmpty = σ.isEmpty := by
    simp [mapVars, Assignment.mapVars, isEmpty]
  rw [apply, apply, hempty]
  split
  · exact .pure _ rfl
  · exact t.assign_slides s σ.entries

lemma put_slide (σ : Subst) (v : Var) (t : Term) :
    (σ.put v t).mapVars s.var = (σ.mapVars s.var).put (s.var v) (t.mapVars s.var) := by
  rw [put, put, contains_slide]
  split
  · simp only [mapVars, Assignment.mapVars, map_map, mk.injEq]
    refine map_congr_left fun entry _ => ?_
    simp only [Function.comp_apply, Prod.map_fst, s.var_beq]
    split <;> rfl
  · simp [mapVars, Assignment.mapVars]

lemma applyEntries_slides (σ : Subst) (entries : List (Var × Term)) :
    Fresh.Slides s (Assignment.mapVars s.var) (σ.applyEntries entries)
      ((σ.mapVars s.var).applyEntries (Assignment.mapVars s.var entries)) := by
  refine .mapM (fun entry => ?_) entries
  exact (apply_slides s σ entry.2).bind fun _ => .pure _ rfl

lemma insert_slides (σ : Subst) (v : Var) (t : Term) :
    Fresh.Slides s (mapVars s.var) (σ.insert v t)
      ((σ.mapVars s.var).insert (s.var v) (t.mapVars s.var)) :=
  (applyEntries_slides s (single v t) σ.entries).bind fun entries =>
    .pure _ (put_slide s ⟨entries⟩ v t)

end Subst

lemma Term.rename_slides (t : Term) (v w : Var) :
    Fresh.Slides s (Term.mapVars s.var) (t.rename v w)
      ((t.mapVars s.var).rename (s.var v) (s.var w)) := by
  unfold rename
  simp only [s.var_inj]
  split
  · exact .pure _ rfl
  · exact Subst.apply_slides s _ t

end

end Clausal
