import Clausal.Var
import Mathlib.Data.List.Forall2
import Mathlib.Data.Nat.Basic
import Mathlib.Order.Basic

/-!
# Runs of computations

What it means that a computation returns a value, and what the runs of
composed computations are made of.
-/

namespace Clausal

variable {m n : Nat}

namespace Fresh

variable {α β : Type}

/-- The value that a computation returns from a supply. -/
def value (x : Fresh α) (n : Nat) : α := (x.run n).1

/-- The supply that a computation leaves. -/
def next (x : Fresh α) (n : Nat) : Nat := (x.run n).2

@[simp] lemma value_pure (a : α) (n : Nat) : value (pure a) n = a := rfl

@[simp] lemma next_pure (a : α) (n : Nat) : next (pure a : Fresh α) n = n := rfl

@[simp] lemma value_bind (x : Fresh α) (f : α → Fresh β) (n : Nat) :
    value (x >>= f) n = value (f (value x n)) (next x n) := rfl

@[simp] lemma next_bind (x : Fresh α) (f : α → Fresh β) (n : Nat) :
    next (x >>= f) n = next (f (value x n)) (next x n) := rfl

@[simp] lemma value_fresh (name : Name) (n : Nat) : value (Var.fresh name) n = ⟨n, name⟩ := rfl

@[simp] lemma next_fresh (name : Name) (n : Nat) : next (Var.fresh name) n = n + 1 := rfl

@[simp] lemma value_refresh (v : Var) (n : Nat) : value v.refresh n = ⟨n, v.name⟩ := rfl

@[simp] lemma next_refresh (v : Var) (n : Nat) : next v.refresh n = n + 1 := rfl

/-- A computation for each element of a list, from left to right. -/
lemma mapM_spec {f : α → Fresh β} (hf : ∀ a n, n ≤ (f a).next n) (as : List α) (n : Nat) :
    n ≤ (as.mapM f).next n ∧
      List.Forall₂ (fun a b => ∃ k, n ≤ k ∧ (f a).next k ≤ (as.mapM f).next n ∧ b = (f a).value k)
        as ((as.mapM f).value n) := by
  induction as generalizing n with
  | nil => exact ⟨le_refl n, .nil⟩
  | cons a as ih =>
    obtain ⟨hnext, hrest⟩ := ih ((f a).next n)
    rw [List.mapM_cons]
    refine ⟨le_trans (hf a n) hnext, .cons ⟨n, le_refl n, hnext, rfl⟩ ?_⟩
    exact hrest.imp fun _ _ ⟨k, hk, hm, hb⟩ => ⟨k, le_trans (hf a n) hk, hm, hb⟩

/-! ### Computations that may fail -/

variable {ε : Type}

/-- The computation succeeds with `a` and leaves the supply `m`. -/
def Yields (x : ExceptT ε Fresh α) (n : Nat) (a : α) (m : Nat) : Prop :=
  value x.run n = .ok a ∧ next x.run n = m

@[simp] lemma yields_pure : Yields (pure a : ExceptT ε Fresh α) n b m ↔ a = b ∧ n = m := by
  change (Except.ok a = .ok b ∧ n = m) ↔ _
  simp

@[simp] lemma yields_throw : ¬ Yields (throw e : ExceptT ε Fresh α) n a m := fun h => nomatch h.1

@[simp] lemma yields_bind {x : ExceptT ε Fresh α} {f : α → ExceptT ε Fresh β} {b : β} :
    Yields (x >>= f) n b m ↔ ∃ a k, Yields x n a k ∧ Yields (f a) k b m := by
  have hrun : (x >>= f).run = x.run >>= ExceptT.bindCont f := rfl
  simp only [Yields, hrun, value_bind, next_bind]
  constructor
  · intro h
    cases hx : value x.run n with
    | ok a =>
      rw [hx] at h
      exact ⟨a, _, ⟨rfl, rfl⟩, h⟩
    | error e =>
      rw [hx] at h
      cases h.1
  · rintro ⟨a, _, ⟨hx, rfl⟩, h⟩
    rw [hx]
    exact h

@[simp] lemma yields_lift {x : Fresh α} :
    Yields (liftM x : ExceptT ε Fresh α) n a m ↔ x.value n = a ∧ x.next n = m := by
  change (Except.ok (value x n) = .ok a ∧ next x n = m) ↔ _
  simp

end Fresh

namespace Eval

variable {α β : Type}

/-- The computation ends with `a` and leaves the supply `m`. -/
def Returns (x : Eval α) (n : Nat) (a : α) (m : Nat) : Prop := x n = some (a, m)

variable {a b : α} {x : Eval α}

@[simp] lemma returns_pure : Returns (pure a : Eval α) n b m ↔ a = b ∧ n = m := by
  change some (a, n) = some (b, m) ↔ _
  simp

@[simp] lemma returns_bind {b : β} :
    Returns (x >>= f) n b m ↔ ∃ a k, Returns x n a k ∧ Returns (f a) k b m := by
  change (x n).bind (fun p => f p.1 p.2) = some (b, m) ↔ _
  rw [Option.bind_eq_some_iff]
  exact ⟨fun ⟨p, hx, hf⟩ => ⟨p.1, p.2, hx, hf⟩, fun ⟨a, k, hx, hf⟩ => ⟨(a, k), hx, hf⟩⟩

@[simp] lemma returns_lift {x : Fresh α} :
    Returns (liftM x : Eval α) n a m ↔ x.value n = a ∧ x.next n = m := by
  change some (x.run n) = some (a, m) ↔ _
  rw [Option.some.injEq]
  exact ⟨fun h => ⟨congrArg Prod.fst h, congrArg Prod.snd h⟩, fun h => Prod.ext h.1 h.2⟩

@[simp] lemma returns_outOfFuel : ¬ Returns (outOfFuel : Eval α) n a m := by
  intro h
  have heq : none = some (a, m) := h
  simp at heq

/-! ### Computations that may fail -/

variable {ε : Type}

/-- The computation succeeds with `a` and leaves the supply `m`. -/
def Yields (x : ExceptT ε Eval α) (n : Nat) (a : α) (m : Nat) : Prop := Returns x.run n (.ok a) m

@[simp] lemma yields_pure : Yields (pure a : ExceptT ε Eval α) n b m ↔ a = b ∧ n = m := by
  change Returns (pure (.ok a) : Eval (Except ε α)) n (.ok b) m ↔ _
  simp

lemma run_bind_cases {x : ExceptT ε Eval α} :
    Returns (x >>= f).run n r m ↔
      (∃ e, Returns x.run n (.error e) m ∧ r = .error e) ∨
        ∃ a k, Yields x n a k ∧ Returns (f a).run k r m := by
  change Returns (x.run >>= ExceptT.bindCont f) n r m ↔ _
  rw [returns_bind]
  constructor
  · rintro ⟨a, k, hx, hf⟩
    cases a with
    | ok a => exact .inr ⟨a, k, hx, hf⟩
    | error e =>
      obtain ⟨rfl, rfl⟩ := returns_pure.1 hf
      exact .inl ⟨e, hx, rfl⟩
  · rintro (⟨e, hx, rfl⟩ | ⟨a, k, hx, hf⟩)
    · exact ⟨.error e, m, hx, returns_pure.2 ⟨rfl, rfl⟩⟩
    · exact ⟨.ok a, k, hx, hf⟩

@[simp] lemma yields_bind {x : ExceptT ε Eval α} {b : β} :
    Yields (x >>= f) n b m ↔ ∃ a k, Yields x n a k ∧ Yields (f a) k b m := by
  rw [Yields, run_bind_cases]
  simp [Yields]

@[simp] lemma yields_throw : ¬ Yields (throw e : ExceptT ε Eval α) n a m := by
  intro h
  have h' : Returns (pure (.error e) : Eval (Except ε α)) n (.ok a) m := h
  simp at h'

@[simp] lemma yields_lift : Yields (liftM x : ExceptT ε Eval α) n a m ↔ Returns x n a m := by
  change Returns (x >>= fun b => pure (.ok b) : Eval (Except ε α)) n (.ok a) m ↔ _
  rw [returns_bind]
  simp

@[simp] lemma yields_liftFresh {x : Fresh α} :
    Yields (liftM x : ExceptT ε Eval α) n a m ↔ x.value n = a ∧ x.next n = m := by
  change Yields (liftM (liftM x : Eval α)) n a m ↔ _
  rw [yields_lift, returns_lift]

/-! ### The supply only grows -/

/-- No number is handed out twice. -/
def Forward (x : Eval α) : Prop := ∀ ⦃n : Nat⦄ ⦃a : α⦄ ⦃m : Nat⦄, Returns x n a m → n ≤ m

namespace Forward

protected lemma pure (a : α) : Forward (pure a) := by
  intro n b m h
  exact le_of_eq (returns_pure.1 h).2

protected lemma outOfFuel : Forward (outOfFuel : Eval α) := fun _ _ _ h =>
  (returns_outOfFuel h).elim

variable {x : Eval α} {f : α → ExceptT ε Eval β}

protected lemma bind {f : α → Eval β} (hx : Forward x) (hf : ∀ a, Forward (f a)) :
    Forward (x >>= f) := by
  intro n b m h
  obtain ⟨a, k, ha, hb⟩ := returns_bind.1 h
  exact le_trans (hx ha) (hf a hb)

protected lemma lift {x : Fresh α} (hx : ∀ n, n ≤ x.next n) : Forward (liftM x) := by
  intro n a m h
  obtain ⟨-, rfl⟩ := returns_lift.1 h
  exact hx n

lemma run_pure (a : α) : Forward (pure a : ExceptT ε Eval α).run := .pure (Except.ok a)

lemma run_bind {x : ExceptT ε Eval α} (hx : Forward x.run) (hf : ∀ a, Forward (f a).run) :
    Forward (x >>= f).run := by
  intro n r m h
  rcases run_bind_cases.1 h with ⟨e, he, -⟩ | ⟨a, k, ha, hb⟩
  · exact hx he
  · exact le_trans (hx ha) (hf a hb)

lemma run_lift (hx : Forward x) : Forward (liftM x : ExceptT ε Eval α).run :=
  .bind hx fun a => .pure (Except.ok a)

lemma run_liftFresh {x : Fresh α} (hx : ∀ n, n ≤ x.next n) :
    Forward (liftM x : ExceptT ε Eval α).run := run_lift (.lift hx)

lemma run_mapM (hf : ∀ a, Forward (f a).run) (as : List α) : Forward (as.mapM f).run := by
  induction as with
  | nil => exact run_pure _
  | cons a as ih =>
    rw [List.mapM_cons]
    exact run_bind (hf a) fun _ => run_bind ih fun _ => run_pure _

end Forward

/-- A run over a list is a run of each member, one after the other. -/
lemma yields_mapM {f : α → ExceptT ε Eval β} (hf : ∀ a, Forward (f a).run) {as : List α}
    {bs : List β} (h : Yields (as.mapM f) n bs m) :
    List.Forall₂ (fun a b => ∃ k l, n ≤ k ∧ l ≤ m ∧ Yields (f a) k b l) as bs := by
  induction as generalizing bs n with
  | nil =>
    obtain ⟨rfl, -⟩ := yields_pure.1 h
    exact .nil
  | cons a as ih =>
    rw [List.mapM_cons] at h
    simp only [yields_bind, yields_pure] at h
    obtain ⟨b, k, hb, bs', l, hbs, rfl, rfl⟩ := h
    have hk := hf a hb
    have hl := Forward.run_mapM hf as hbs
    refine .cons ⟨n, k, le_refl n, hl, hb⟩ ((ih hbs).imp ?_)
    rintro a b ⟨j, i, hj, hi, hab⟩
    exact ⟨j, i, hk.trans hj, hi, hab⟩

/-! ### Computations with a state -/

variable {σ : Type}

/-- A failure ends the computation, and the state stays as it was left. -/
lemma returns_state_bind {x : ExceptT ε (StateT σ Eval) α} {f : α → ExceptT ε (StateT σ Eval) β} :
    Returns ((x >>= f).run.run s) n (r, s') m ↔
      (∃ a s₁ k, Returns (x.run.run s) n (.ok a, s₁) k ∧ Returns ((f a).run.run s₁) k (r, s') m) ∨
        ∃ e, Returns (x.run.run s) n (.error e, s') m ∧ r = .error e := by
  change Returns (x.run.run s >>= fun p => (ExceptT.bindCont f p.1).run p.2) n (r, s') m ↔ _
  rw [returns_bind]
  constructor
  · rintro ⟨⟨a, s₁⟩, k, hx, hf⟩
    cases a with
    | ok a => exact .inl ⟨a, s₁, k, hx, hf⟩
    | error e =>
      obtain ⟨heq, rfl⟩ := returns_pure.1 hf
      cases heq
      exact .inr ⟨e, hx, rfl⟩
  · rintro (⟨a, s₁, k, hx, hf⟩ | ⟨e, hx, rfl⟩)
    · exact ⟨(.ok a, s₁), k, hx, hf⟩
    · exact ⟨(.error e, s'), m, hx, returns_pure.2 ⟨rfl, rfl⟩⟩

lemma returns_state_lift :
    Returns ((liftM x : ExceptT ε (StateT σ Eval) α).run.run s) n (r, s') m ↔
      ∃ a, Returns x n a m ∧ r = .ok a ∧ s' = s := by
  change Returns ((x >>= fun b => pure (b, s)) >>= fun p =>
    pure (Except.ok p.1, p.2) : Eval (Except ε α × σ)) n (r, s') m ↔ _
  simp only [returns_bind, returns_pure]
  constructor
  · rintro ⟨_, _, ⟨a, k, hx, rfl, rfl⟩, heq, rfl⟩
    cases heq
    exact ⟨a, hx, rfl, rfl⟩
  · rintro ⟨a, hx, rfl, rfl⟩
    exact ⟨_, _, ⟨a, m, hx, rfl, rfl⟩, rfl, rfl⟩

end Eval

end Clausal
