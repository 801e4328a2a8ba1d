import Clausal.Compilation.Workspace
import Clausal.Proofs.SplitFree

/-!
# Compilation as a state transition

What it means that a step of a compilation succeeds, and how the signature it
works on grows: functions are added under the name of the definition that is
compiled, and nothing else changes.
-/

namespace Clausal

open Eval Except

variable {a : Workspace} {n m : Nat}

lemma Eval.yields_adapt {ε ε' α : Type} {f : ε → ε'} {x : ExceptT ε Eval α} {a : α} :
    Eval.Yields (ExceptT.adapt f x) n a m ↔ Eval.Yields x n a m := by
  change Eval.Returns ((x.run : Eval (Except ε α)) >>= fun r => pure (r.mapError f)) n (.ok a) m ↔
    Eval.Returns x.run n (.ok a) m
  simp only [returns_bind, returns_pure]
  constructor
  · rintro ⟨r, k, hx, hr, rfl⟩
    cases r with
    | error e => cases hr
    | ok b => exact ok.inj hr ▸ hx
  · exact fun hx => ⟨.ok a, m, hx, rfl, rfl⟩

namespace Compile

variable {α β : Type}

/-- The step succeeds with `a`, and leaves the workspace `w'` and the supply `m`. -/
def Yields (x : Compile α) (w : Workspace) (n : Nat) (a : α) (w' : Workspace) (m : Nat) : Prop :=
  Eval.Returns (x.run.run w) n (.ok a, w') m

variable {w w' : Workspace} {n m : Nat}

@[simp] lemma yields_pure {a : α} :
    Yields (pure a) w n b w' m ↔ a = b ∧ w = w' ∧ n = m := by
  change Eval.Returns (pure (ok a, w) : Eval _) n (.ok b, w') m ↔ _
  simp [and_assoc]

@[simp] lemma yields_throw {a : α} :
    ¬ Yields (throw e : Compile α) w n a w' m := by
  intro h
  have h' : Eval.Returns (pure (error e, w) : Eval _) n (.ok a, w') m := h
  simp at h'

@[simp] lemma yields_outOfFuel {a : α} : ¬ Yields (outOfFuel : Compile α) w n a w' m :=
  returns_outOfFuel

@[simp] lemma yields_bind {x : Compile α} {f : α → Compile β} {b : β} :
    Yields (x >>= f) w n b w' m ↔
      ∃ a w₁ k, Yields x w n a w₁ k ∧ Yields (f a) w₁ k b w' m := by
  rw [Yields, returns_state_bind]
  simp [Yields]

@[simp] lemma yields_lift {a : α} :
    Yields (liftM x : Compile α) w n a w' m ↔ Eval.Returns x n a m ∧ w = w' := by
  rw [Yields, returns_state_lift]
  simp [eq_comm]

@[simp] lemma yields_liftFresh {x : Fresh α} {a : α} :
    Yields (liftM x : Compile α) w n a w' m ↔ x.value n = a ∧ x.next n = m ∧ w = w' := by
  change Yields (liftM (liftM x : Eval α) : Compile α) w n a w' m ↔ _
  rw [yields_lift, returns_lift, and_assoc]

@[simp] lemma yields_get :
    Yields (get : Compile Workspace) w n a w' m ↔ w = a ∧ w = w' ∧ n = m := by
  change Eval.Returns (pure (ok w, w) : Eval _) n (.ok a, w') m ↔ _
  simp [and_assoc]

@[simp] lemma yields_set : Yields (set a : Compile PUnit) w n u w' m ↔ a = w' ∧ n = m := by
  change Eval.Returns (pure (ok ⟨⟩, a) : Eval _) n (.ok u, w') m ↔ _
  simp

@[simp] lemma yields_modify :
    Yields (modify f : Compile PUnit) w n u w' m ↔ f w = w' ∧ n = m := by
  change Eval.Returns (pure (ok ⟨⟩, f w) : Eval _) n (.ok u, w') m ↔ _
  simp

@[simp] lemma yields_attempt {a : α} :
    Yields (attempt x) w n a w' m ↔ Eval.Yields x n a m ∧ w = w' := by
  change Eval.Returns (x.run >>= fun r => pure (r, w) : Eval _) n (.ok a, w') m ↔
    Eval.Returns x.run n (.ok a) m ∧ _
  rw [returns_bind]
  simp

@[simp] lemma yields_checked {report : TypeError → CompileError} {x : Check α} {a : α} :
    Yields (checked report x) w n a w' m ↔ Eval.Yields x n a m ∧ w = w' := by
  rw [checked, yields_attempt, yields_adapt]

@[simp] lemma yields_resolved {a : α} :
    Yields (resolved x) w n a w' m ↔ Fresh.Yields x n a m ∧ w = w' := by
  rw [resolved, yields_attempt]
  simp only [Eval.Yields, ExceptT.run_mk, returns_bind]
  refine and_congr_left fun _ => ⟨?_, ?_⟩
  · rintro ⟨r, k, hx, hr⟩
    obtain ⟨hvalue, rfl⟩ := returns_lift.1 hx
    cases r with
    | ok b =>
      obtain ⟨hb, rfl⟩ := returns_pure.1 hr
      exact ⟨by rw [hvalue, ok.inj hb], rfl⟩
    | error e =>
      cases (returns_pure.1 hr).1
  · rintro ⟨hvalue, rfl⟩
    refine ⟨.ok a, _, returns_lift.2 ⟨hvalue, rfl⟩, ?_⟩
    exact returns_pure.2 ⟨rfl, rfl⟩

@[simp] lemma yields_env {a : Env} :
    Yields env w n a w' m ↔ { sig := w.sig } = a ∧ w = w' ∧ n = m := by
  simp only [env, yields_bind, yields_get, yields_pure]
  constructor
  · rintro ⟨_, _, _, ⟨rfl, rfl, rfl⟩, rfl, rfl, rfl⟩
    exact ⟨rfl, rfl, rfl⟩
  · rintro ⟨rfl, rfl, rfl⟩
    exact ⟨w, w, n, ⟨rfl, rfl, rfl⟩, rfl, rfl, rfl⟩

end Compile

/-! ### Signatures that grow -/

/-- The name of a definition, or of something generated for it. -/
def Name.Under (root name : Name) : Prop := name = root ∨ ∃ suffix, name = qualify root suffix

lemma Name.Under.qualify (h : Under root name) (suffix : String) :
    Under root (name.qualify suffix) := by
  rcases h with rfl | ⟨s, rfl⟩
  · exact .inr ⟨suffix, rfl⟩
  · exact .inr ⟨s ++ "." ++ suffix, by simp only [Name.qualify, String.append_assoc]⟩

namespace Signature

lemma get?_insert (sig : Signature) (name : Name) (entry : Entry) (other : Name) :
    (sig.insert name entry).get? other = if other = name then some entry else sig.get? other := by
  unfold insert
  by_cases hc : sig.contains name = true
  · -- The keys stay, so looking one up in the changed list finds the same place.
    have hkeys : ((fun e : Name × Entry => e.1 == other) ∘
        fun old => if old.1 == name then (name, entry) else old) = fun e => e.1 == other := by
      funext e
      by_cases he : e.1 = name <;> simp [he]
    rw [if_pos hc, get?, List.find?_map, hkeys]
    by_cases hname : other = name
    · subst hname
      obtain ⟨e, hfind⟩ := Option.isSome_iff_exists.1 hc
      obtain ⟨old, hold, -⟩ := Option.map_eq_some_iff.1 hfind
      have hkey : old.1 = other := by simpa using List.find?_some hold
      simp [hold, hkey]
    · rw [if_neg hname, get?]
      cases hfind : sig.entries.find? fun e => e.1 == other with
      | none => rfl
      | some old =>
        have hkey : old.1 = other := by simpa using List.find?_some hfind
        simp [hkey, hname]
  · rw [if_neg hc, get?, List.find?_append]
    by_cases hname : other = name
    · subst hname
      cases hfind : sig.entries.find? fun e => e.1 == other with
      | none => simp
      | some e => exact (hc (by simp [contains, get?, hfind])).elim
    · rw [if_neg hname, get?]
      have hne : ¬ name = other := fun he => hname he.symm
      cases sig.entries.find? fun e => e.1 == other <;> simp [hne]

end Signature

/-- The type has no case splits, and the body is a case tree if it may be unfolded. -/
structure Function.SplitFree (n : Nat) (f : Function) : Prop where
  type : f.type.SplitFree n
  body : ∀ ⦃body : Term⦄, f.transparent = true → f.body = some body → body.CaseTree n

lemma Function.SplitFree.mono {f : Function} (h : f.SplitFree n) (hnm : n ≤ m) :
    f.SplitFree m := ⟨h.type.mono hnm, fun _ ht hb => (h.body ht hb).mono hnm⟩

/-- The body has no free variables if it may be unfolded. -/
def Function.Closed (f : Function) : Prop :=
  ∀ ⦃body : Term⦄, f.transparent = true → f.body = some body → body.Over .closed

namespace Signature

/-- The types of constructors and the bodies that may be unfolded have no free
variables. -/
structure Closed (sig : Signature) : Prop where
  ctor : ∀ ⦃c : Name⦄ ⦃k : Ctor⦄, sig.ctor? c = some k → k.type.Over .closed
  body : ({ sig } : Env).Closed

/-- Types have no case splits, functions that may be unfolded are case trees,
and everything is behind the supply. -/
structure SplitFree (n : Nat) (sig : Signature) : Prop where
  type : ∀ ⦃name : Name⦄ ⦃type : Term⦄, sig.type? name = some type → type.SplitFree n
  body : ∀ ⦃name : Name⦄ ⦃body : Term⦄, sig.unfoldable? [] name = some body → body.CaseTree n

/-- Functions are added under the name of a definition, or replaced there. -/
def Grows (root : Name) (m : Nat) (sig sig' : Signature) : Prop :=
  ∀ name, sig'.get? name = sig.get? name ∨
    Name.Under root name ∧ ∃ f : Function, sig'.get? name = some (.function f) ∧ f.SplitFree m ∧
      f.Closed

variable {n m : Nat} {sig : Signature}

lemma SplitFree.mono (h : sig.SplitFree n) (hnm : n ≤ m) : sig.SplitFree m :=
  ⟨fun _ _ ht => (h.type ht).mono hnm, fun _ _ hb => (h.body hb).mono hnm⟩

lemma SplitFree.keeps (h : sig.SplitFree n) : ({ sig } : Env).Keeps Term.SplitFree n :=
  Env.keeps_splitFree h.body

namespace Grows

lemma refl (root : Name) (n : Nat) (sig : Signature) : sig.Grows root n sig := fun _ => .inl rfl

lemma mono (h : sig.Grows root n sig') (hnm : n ≤ m) : sig.Grows root m sig' := fun name =>
  (h name).imp_right fun ⟨hname, f, hf, hfree, hclosed⟩ =>
    ⟨hname, f, hf, hfree.mono hnm, hclosed⟩

lemma trans (h : sig.Grows root n sig') (h' : sig'.Grows root m sig'') (hnm : n ≤ m) :
    sig.Grows root m sig'' := by
  intro name
  rcases h' name with heq | hnew
  · rw [heq]
    exact h.mono hnm name
  · exact .inr hnew

variable {f : Function} {name : Name}

lemma addFunction (hname : Name.Under root f.name) (hf : f.SplitFree n) (hclosed : f.Closed) :
    sig.Grows root n (sig.addFunction f) := by
  intro name
  rw [Signature.addFunction, get?_insert]
  by_cases hn : name = f.name
  · rw [if_pos hn]
    exact .inr ⟨hn ▸ hname, f, rfl, hf, hclosed⟩
  · rw [if_neg hn]
    exact .inl rfl

section

variable (h : sig.Grows root n sig')

include h

lemma add (hname : Name.Under root f.name) (hf : f.SplitFree n)
    (hclosed : f.Closed) : sig.Grows root n (sig'.addFunction f) :=
  h.trans (addFunction hname hf hclosed) (by omega)

lemma ctor? (hk : sig'.ctor? c = some k) :
    sig.ctor? c = some k := by
  unfold Signature.ctor? at hk ⊢
  rcases h c with heq | ⟨-, f, hf, -⟩
  · rwa [← heq]
  · simp [hf] at hk

lemma family?
    (hfamily : sig'.family? name = some family) : sig.family? name = some family := by
  unfold Signature.family? at hfamily ⊢
  rcases h name with heq | ⟨-, f, hf, -⟩
  · rwa [← heq]
  · simp [hf] at hfamily

end

variable (h : sig.Grows root m sig')

include h

/-- A body that may be unfolded was there, or is that of a new function. -/
lemma unfoldable?
    (hbody : sig'.unfoldable? [] name = some body) : sig.unfoldable? [] name = some body ∨
      ∃ f : Function, f.transparent = true ∧ f.body = some body ∧ f.SplitFree m ∧ f.Closed := by
  rcases h name with heq | ⟨-, f, hf, hfree, hclosed⟩
  · rw [Signature.unfoldable?, function?, heq] at hbody
    exact .inl hbody
  · have hfunction : sig'.function? name = some f := by rw [function?, hf]
    rw [Signature.unfoldable?, hfunction] at hbody
    simp only [List.contains_nil, Bool.or_false] at hbody
    split at hbody
    · next htransparent => exact .inr ⟨f, htransparent, hbody, hfree, hclosed⟩
    · cases hbody

lemma splitFree (hsig : sig.SplitFree n) (hnm : n ≤ m) :
    sig'.SplitFree m where
  type name type htype := by
    rcases h name with heq | ⟨-, f, hf, hfree, -⟩
    · rw [type?, heq] at htype
      exact (hsig.type htype).mono hnm
    · rw [type?, hf] at htype
      exact Option.some.inj htype ▸ hfree.type
  body name body hbody := by
    rcases h.unfoldable? hbody with hold | ⟨f, htransparent, hf, hfree, -⟩
    · exact (hsig.body hold).mono hnm
    · exact hfree.body htransparent hf

lemma closed (hsig : sig.Closed) : sig'.Closed where
  ctor _ _ hk := hsig.ctor (h.ctor? hk)
  body name body hbody := by
    rcases h.unfoldable? hbody with hold | ⟨f, htransparent, hf, -, hclosed⟩
    · exact hsig.body hold
    · exact hclosed htransparent hf

end Grows
end Signature
end Clausal
