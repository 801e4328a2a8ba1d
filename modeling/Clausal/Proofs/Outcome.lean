import Clausal.Proofs.Compilation

/-!
# Outcomes of steps

A step of a compilation succeeds, fails with an error, or runs out of fuel.  Success is
inverted in `Clausal.Proofs.Workspace`; here are failures, and that a step ends at all.
-/

namespace Clausal.Compile

open Eval (Returns)

variable {α β : Type}

/-- The step fails with an error. -/
def Fails (x : Compile α) (w : Workspace) (n : Nat) (e : CompileError) : Prop :=
  ∃ w' m, Returns (x.run.run w) n (.error e, w') m

/-- The step ends, whether it succeeds or fails. -/
def Ends (x : Compile α) (w : Workspace) (n : Nat) : Prop := ∃ r m, Returns (x.run.run w) n r m

/-! ### Runs -/

variable {x : Compile α}

lemma returns_run_bind {r : Except CompileError β × Workspace} :
    Returns ((x >>= f).run.run w) n r m ↔ ∃ p k, Returns (x.run.run w) n p k ∧
      Returns ((ExceptT.bindCont f p.1 : StateT Workspace Eval (Except CompileError β)).run p.2) k
        r m :=
  Eval.returns_bind (x := x.run.run w) (f := fun p => (ExceptT.bindCont f p.1).run p.2)

lemma returns_run_attempt {x : Attempt α} :
    Returns ((attempt x).run.run w) n (r, w') m ↔ Returns x.run n r m ∧ w = w' := by
  change Returns (x.run >>= fun r => pure (r, w) : Eval _) n (r, w') m ↔ _
  rw [Eval.returns_bind]
  simp

lemma returns_run_checked {x : Check α} :
    Returns ((checked report x).run.run w) n (r, w') m ↔
      (∃ r', Returns x.run n r' m ∧ r'.mapError report = r) ∧ w = w' := by
  rw [checked, returns_run_attempt]
  change Returns ((x.run : Eval _) >>= fun r => pure (r.mapError report)) n r m ∧ _ ↔ _
  simp only [Eval.returns_bind, Eval.returns_pure]
  refine and_congr_left fun _ => ⟨?_, ?_⟩
  · rintro ⟨r', k, hx, hr, rfl⟩
    exact ⟨r', hx, hr⟩
  · rintro ⟨r', hx, hr⟩
    exact ⟨r', m, hx, hr, rfl⟩

/-! ### Steps that end -/

namespace Ends

protected lemma pure (a : α) : Ends (pure a : Compile α) w n :=
  ⟨(.ok a, w), n, Eval.returns_pure.2 ⟨rfl, rfl⟩⟩

protected lemma throw (e : CompileError) : Ends (throw e : Compile α) w n :=
  ⟨(.error e, w), n, Eval.returns_pure.2 ⟨rfl, rfl⟩⟩

variable {x : Eval α} {f : α → Compile β}

protected lemma bind {x : Compile α} (hx : Ends x w n)
    (hf : ∀ a w₁ k, Yields x w n a w₁ k → Ends (f a) w₁ k) : Ends (x >>= f) w n := by
  obtain ⟨⟨r, w₁⟩, k, hx⟩ := hx
  cases r with
  | ok a =>
    obtain ⟨r, m, hr⟩ := hf a w₁ k hx
    exact ⟨r, m, returns_run_bind.2 ⟨_, k, hx, hr⟩⟩
  | error e =>
    exact ⟨(.error e, w₁), k, returns_run_bind.2 ⟨_, k, hx, Eval.returns_pure.2 ⟨rfl, rfl⟩⟩⟩

protected lemma lift (h : Returns x n a m) :
    Ends (liftM x : Compile α) w n := ⟨_, m, yields_lift.2 ⟨h, rfl⟩⟩

lemma of_lift (h : Ends (liftM x : Compile α) w n) : ∃ a m, Returns x n a m := by
  obtain ⟨r, m, h⟩ := h
  obtain ⟨a, hx, -⟩ := Eval.returns_state_lift.1 h
  exact ⟨a, m, hx⟩

lemma not_outOfFuel : ¬ Ends (outOfFuel : Compile α) w n := fun ⟨_, _, h⟩ =>
  Eval.returns_outOfFuel h

protected lemma checked {x : Check α} {r : Except TypeError α} (h : Returns x.run n r m) :
    Ends (checked report x) w n :=
  ⟨(r.mapError report, w), m, returns_run_checked.2 ⟨⟨r, h, rfl⟩, rfl⟩⟩

lemma of_bind {x : Compile α} (h : Ends (x >>= f) w n) : Ends x w n ∧
    ∀ a w₁ k, Yields x w n a w₁ k → Ends (f a) w₁ k := by
  obtain ⟨r, m, h⟩ := h
  obtain ⟨p, k, hx, h⟩ := returns_run_bind.1 h
  refine ⟨⟨p, k, hx⟩, fun a w₁ l hyields => ?_⟩
  cases hx.symm.trans hyields
  exact ⟨r, m, h⟩

protected lemma env_bind {f : Env → Compile β} (h : Ends (f w.env) w n) :
    Ends (env >>= f) w n := h

lemma of_env_bind {f : Env → Compile β} (h : Ends (env >>= f) w n) : Ends (f w.env) w n := h

lemma of_lift_bind (h : Ends ((liftM x : Compile α) >>= f) w n) (hx : Returns x n a m) :
    Ends (f a) w m :=
  h.of_bind.2 a w m (yields_lift.2 ⟨hx, rfl⟩)

lemma of_checked_bind {x : Check α} (h : Ends (checked report x >>= f) w n)
    (hx : Eval.Yields x n a m) : Ends (f a) w m :=
  h.of_bind.2 a w m (yields_checked.2 ⟨hx, rfl⟩)

protected lemma fresh_bind {x : Fresh α} (h : Ends (f (x.value n)) w (x.next n)) :
    Ends ((liftM x : Compile α) >>= f) w n := h

lemma of_fresh_bind {x : Fresh α} (h : Ends ((liftM x : Compile α) >>= f) w n) :
    Ends (f (x.value n)) w (x.next n) := h

end Ends

/-! ### Steps that agree -/

/-- The two steps have the same outcome if both end. -/
def Agree (x y : Compile α) (w : Workspace) (n : Nat) : Prop :=
  ∀ ⦃r r' : Except CompileError α × Workspace⦄ ⦃m m' : Nat⦄, Returns (x.run.run w) n r m →
    Returns (y.run.run w) n r' m' → r = r' ∧ m = m'

namespace Agree

lemma refl (x : Compile α) (w : Workspace) (n : Nat) : Agree x x w n := fun _ _ _ _ h h' =>
  Prod.mk.inj (Option.some.inj (h.symm.trans h'))

variable {x : Compile α}

protected lemma bind {f : α → Compile β} (hx : Agree x y w n)
    (hf : ∀ a w₁ k, Yields x w n a w₁ k → Agree (f a) (g a) w₁ k) :
    Agree (x >>= f) (y >>= g) w n := by
  intro r r' m m' h h'
  obtain ⟨⟨s, w₁⟩, k, hs, h⟩ := returns_run_bind.1 h
  obtain ⟨p', k', hs', h'⟩ := returns_run_bind.1 h'
  obtain ⟨rfl, rfl⟩ := hx hs hs'
  cases s with
  | ok a => exact hf a w₁ k hs h h'
  | error e =>
    obtain ⟨rfl, rfl⟩ := Eval.returns_pure.1 h
    exact Eval.returns_pure.1 h'

lemma yields (h : Agree x y w n) (hx : Ends x w n)
    (hy : Yields y w n a w₁ k) : Yields x w n a w₁ k := by
  obtain ⟨r, m, hr⟩ := hx
  obtain ⟨rfl, rfl⟩ := h hr hy
  exact hr

end Agree

/-! ### Steps that fail -/

@[simp] lemma fails_pure : ¬ Fails (pure a : Compile α) w n e := by
  rintro ⟨w', m, h⟩
  have h' : Returns (pure (Except.ok a, w) : Eval _) n (.error e, w') m := h
  simp at h'

@[simp] lemma fails_throw : Fails (throw e' : Compile α) w n e ↔ e' = e := by
  constructor
  · rintro ⟨w', m, h⟩
    have h' : Returns (pure (Except.error e', w) : Eval _) n (.error e, w') m := h
    exact Except.error.inj (Prod.mk.inj (Eval.returns_pure.1 h').1).1
  · rintro rfl
    exact ⟨w, n, Eval.returns_pure.2 ⟨rfl, rfl⟩⟩

@[simp] lemma fails_outOfFuel : ¬ Fails (outOfFuel : Compile α) w n e := fun ⟨_, _, h⟩ =>
  Eval.returns_outOfFuel h

/-- A step that leads to another one fails, or the other one does. -/
lemma fails_bind : Fails (x >>= f) w n e ↔
    Fails x w n e ∨ ∃ a w₁ k, Yields x w n a w₁ k ∧ Fails (f a) w₁ k e := by
  constructor
  · rintro ⟨w', m, h⟩
    rcases Eval.returns_state_bind.1 h with ⟨a, w₁, k, hx, hf⟩ | ⟨e', hx, he⟩
    · exact .inr ⟨a, w₁, k, hx, w', m, hf⟩
    · cases he
      exact .inl ⟨w', m, hx⟩
  · rintro (⟨w', m, hx⟩ | ⟨a, w₁, k, hx, w', m, hf⟩)
    · exact ⟨w', m, Eval.returns_state_bind.2 (.inr ⟨e, hx, rfl⟩)⟩
    · exact ⟨w', m, Eval.returns_state_bind.2 (.inl ⟨a, w₁, k, hx, hf⟩)⟩

@[simp] lemma fails_lift {x : Eval α} : ¬ Fails (liftM x : Compile α) w n e := by
  rintro ⟨w', m, h⟩
  obtain ⟨a, -, herror, -⟩ := Eval.returns_state_lift.1 h
  cases herror

lemma fails_attempt {x : Attempt α} :
    Fails (attempt x) w n e ↔ ∃ m, Returns x.run n (.error e) m := by
  constructor
  · rintro ⟨w', m, h⟩
    exact ⟨m, (returns_run_attempt.1 h).1⟩
  · rintro ⟨m, h⟩
    exact ⟨w, m, returns_run_attempt.2 ⟨h, rfl⟩⟩

lemma fails_resolved {x : Surface.Resolve α} (h : Fails (resolved x) w n e) :
    ∃ error, e = .ofScope error := by
  obtain ⟨m, h⟩ := fails_attempt.1 h
  obtain ⟨r, k, -, h⟩ := Eval.returns_bind.1 h
  cases r with
  | ok a =>
    cases (Eval.returns_pure.1 h).1
  | error error =>
    obtain ⟨heq, -⟩ := Eval.returns_pure.1 h
    exact ⟨error, (Except.error.inj heq).symm⟩

/-! Steps that only read or extend the workspace are carried out. -/

lemma fails_env_bind {f : Env → Compile β} :
    Fails (env >>= f) w n e ↔ Fails (f w.env) w n e := Iff.rfl

lemma fails_scope_bind {f : Surface.Scope → Compile β} : Fails (scope job >>= f) w n e ↔
    Fails (f { sig := w.sig, auxiliaries := job.auxiliaries }) w n e := Iff.rfl

lemma fails_get_bind {f : Workspace → Compile β} :
    Fails (get >>= f) w n e ↔ Fails (f w) w n e := Iff.rfl

lemma fails_addFunction_bind {f : Unit → Compile β} :
    Fails (addFunction g >>= f) w n e ↔ Fails (f ()) (w.withFunction g) n e := Iff.rfl

lemma fails_addAuxiliary_bind {f : Unit → Compile β} :
    Fails (addAuxiliary g >>= f) w n e ↔
      Fails (f ()) { w with auxiliaries := w.auxiliaries ++ [g] } n e := Iff.rfl

lemma fails_inspectionName_bind {f : Name → Compile β} : Fails (inspectionName job >>= f) w n e ↔
    Fails (f (Name.qualify job.root s!"with{w.inspections + 1}"))
      { w with inspections := w.inspections + 1 } n e := Iff.rfl

lemma fails_fresh_bind {x : Fresh α} :
    Fails ((liftM x : Compile α) >>= f) w n e ↔ Fails (f (x.value n)) w (x.next n) e := Iff.rfl

lemma fails_lift_bind {x : Eval α} :
    Fails ((liftM x : Compile α) >>= f) w n e ↔ ∃ a k, Returns x n a k ∧ Fails (f a) w k e := by
  rw [fails_bind]
  constructor
  · rintro (h | ⟨a, w₁, k, hyields, h⟩)
    · exact (fails_lift h).elim
    · obtain ⟨hx, rfl⟩ := yields_lift.1 hyields
      exact ⟨a, k, hx, h⟩
  · rintro ⟨a, k, hx, h⟩
    exact .inr ⟨a, w, k, yields_lift.2 ⟨hx, rfl⟩, h⟩

end Clausal.Compile
