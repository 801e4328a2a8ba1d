import Clausal.Proofs.AllVars
import Clausal.Proofs.Conversion
import Clausal.Proofs.Evaluation

/-!
# Normal forms

Full reduction develops a term, and develops the weak-head normal form of every
part without a step at its head.
-/

namespace Clausal

open Eval Term
open Nameless (Devs Inside Rests)

variable {u t : Term} {k : Nat}

lemma Nameless.Devs.close (ht : t.Over S) (hu : u.Over S')
    (h : Devs R (t.nameless []) (u.nameless [])) (stack : List Var) :
    Devs R (t.nameless stack) (u.nameless stack) := by
  rw [← nameless_close ht stack, ← nameless_close hu stack]
  exact h.fill _

namespace Env

variable {env : Env} {m fuel : Nat}

/-- Full reduction of the parts of a weak-head normal form. -/
def normaliseParts (env : Env) (fuel : Nat) : Term → Eval Term
  | .pi v dom cod => do
      let dom ← env.normaliseWith fuel dom
      let cod ← env.normaliseWith fuel cod
      return .pi v dom cod
  | .lam v dom body => do
      let dom ← env.normaliseWith fuel dom
      let body ← env.normaliseWith fuel body
      return .lam v dom body
  | .app head arg => do
      let head ← env.normaliseWith fuel head
      let arg ← env.normaliseWith fuel arg
      return .app head arg
  | .ann t _ => env.normaliseWith fuel t
  | .case scrut branches => do
      let scrut ← env.normaliseWith fuel scrut
      let branches ← env.normaliseBranches fuel branches
      return .case scrut branches
  | .absurd scrut => do
      let scrut ← env.normaliseWith fuel scrut
      return .absurd scrut
  | t => return t

lemma normaliseWith_succ (t : Term) :
    env.normaliseWith (fuel + 1) t = env.whnf t >>= env.normaliseParts fuel := by
  rw [normaliseWith]
  refine bind_congr fun w => ?_
  cases w <;> rfl

/-- What full reduction makes of a term. -/
structure Normalised (env : Env) (hclosed : env.Closed) (fuel n : Nat) (t u : Term) (m : Nat) :
    Prop where
  next : n ≤ m
  below : u.AllBelow m
  devs : Devs (env.rules hclosed) (t.nameless []) (u.nameless [])
  /-- Its head is that of the weak-head normal form. -/
  inside : ∃ w, Nameless.eval (env.rules hclosed) env.fuel (t.nameless []) = some w ∧
    Inside (env.rules hclosed) w (u.nameless [])
  again : ∀ k, m ≤ k → ∃ k', k ≤ k' ∧ Returns (env.normaliseWith fuel u) k u k'

/-- The same for branches. -/
structure NormalisedBranches (env : Env) (hclosed : env.Closed) (fuel n : Nat) (bs cs : Branches)
    (m : Nat) : Prop where
  next : n ≤ m
  below : cs.AllBelow m
  devs : Devs (env.rules hclosed) (bs.nameless []) (cs.nameless [])
  again : ∀ k, m ≤ k → ∃ k', k ≤ k' ∧ Returns (env.normaliseBranches fuel cs) k cs k'

/-- What is shown by induction on the depth. -/
structure NormalisesAt (env : Env) (hclosed : env.Closed) (n₀ fuel : Nat) : Prop where
  term : ∀ {t u : Term} {n m : Nat}, n₀ ≤ n → t.AllBelow n →
    Returns (env.normaliseWith fuel t) n u m → env.Normalised hclosed fuel n t u m
  branches : ∀ {bs cs : Branches} {n m : Nat}, n₀ ≤ n → bs.AllBelow n →
    Returns (env.normaliseBranches fuel bs) n cs m →
      env.NormalisedBranches hclosed fuel n bs cs m

/-- The parts of a weak-head normal form are reduced, and its head is kept. -/
structure NormalisedParts (env : Env) (hclosed : env.Closed) (fuel n : Nat) (w u : Term) (m : Nat) :
    Prop where
  next : n ≤ m
  below : u.AllBelow m
  inside : Inside (env.rules hclosed) (w.nameless []) (u.nameless [])
  again : ∀ k, m ≤ k → ∃ k', k ≤ k' ∧ Returns (env.normaliseParts fuel u) k u k'

namespace NormalisesAt

lemma two (h : env.NormalisesAt hclosed n₀ fuel) {a b : Term} (hn : n₀ ≤ n) (ha : a.AllBelow n)
    (hb : b.AllBelow n) (hruna : Returns (env.normaliseWith fuel a) n a' k)
    (hrunb : Returns (env.normaliseWith fuel b) k b' m) :
    env.Normalised hclosed fuel n a a' k ∧ env.Normalised hclosed fuel k b b' m := by
  have hna := h.term hn ha hruna
  exact ⟨hna, h.term (hn.trans hna.next) (hb.mono hna.next) hrunb⟩

lemma again_two {α β γ : Type} {x : Eval α} {y : Eval β} {a : α} {b : β}
    (hx : ∀ j, k ≤ j → ∃ j', j ≤ j' ∧ Returns x j a j') (hkm : k ≤ m)
    (hy : ∀ j, m ≤ j → ∃ j', j ≤ j' ∧ Returns y j b j') (f : α → β → γ) (j : Nat)
    (hj : m ≤ j) :
    ∃ j', j ≤ j' ∧ Returns (do let a ← x; let b ← y; return f a b) j (f a b) j' := by
  obtain ⟨i, hji, hi⟩ := hx j (by omega)
  obtain ⟨j', hij, hj'⟩ := hy i (by omega)
  refine ⟨j', hji.trans hij, ?_⟩
  simp only [returns_bind, returns_pure]
  exact ⟨a, i, hi, b, j', hj', rfl, rfl⟩

lemma parts (h : env.NormalisesAt hclosed n₀ fuel) {w : Term} (hn : n₀ ≤ n) (hw : w.AllBelow n)
    (hrests : Rests (env.rules hclosed) env.fuel (w.nameless []))
    (hrun : Returns (env.normaliseParts fuel w) n u m) :
    env.NormalisedParts hclosed fuel n w u m := by
  cases w with
  | univ =>
    obtain ⟨rfl, rfl⟩ := returns_pure.1 hrun
    exact ⟨le_refl n, hw, .univ, fun k _ => ⟨k, le_refl k, rfl⟩⟩
  | var v =>
    obtain ⟨rfl, rfl⟩ := returns_pure.1 hrun
    exact ⟨le_refl n, hw, .free v, fun k _ => ⟨k, le_refl k, rfl⟩⟩
  | global g =>
    obtain ⟨rfl, rfl⟩ := returns_pure.1 hrun
    exact ⟨le_refl n, hw, .global g, fun k _ => ⟨k, le_refl k, rfl⟩⟩
  | ann t type =>
    cases hfuel : env.fuel <;> rw [hfuel] at hrests <;> exact hrests.elim
  | pi v dom cod =>
    simp only [normaliseParts, returns_bind, returns_pure] at hrun
    obtain ⟨dom', k, hdom, cod', m, hcod, rfl, rfl⟩ := hrun
    obtain ⟨hndom, hncod⟩ := h.two hn hw.2.1 hw.2.2 hdom hcod
    have hnext := hndom.next.trans hncod.next
    exact ⟨hnext, ⟨hw.1.trans_le hnext, hndom.below.mono hncod.next, hncod.below⟩,
      .pi hndom.devs (hncod.devs.close hw.2.2.over hncod.below.over [v]),
      again_two hndom.again hncod.next hncod.again (pi v)⟩
  | lam v dom body =>
    simp only [normaliseParts, returns_bind, returns_pure] at hrun
    obtain ⟨dom', k, hdom, body', m, hbody, rfl, rfl⟩ := hrun
    obtain ⟨hndom, hnbody⟩ := h.two hn hw.2.1 hw.2.2 hdom hbody
    have hnext := hndom.next.trans hnbody.next
    exact ⟨hnext, ⟨hw.1.trans_le hnext, hndom.below.mono hnbody.next, hnbody.below⟩,
      .lam hndom.devs (hnbody.devs.close hw.2.2.over hnbody.below.over [v]),
      again_two hndom.again hnbody.next hnbody.again (lam v)⟩
  | app f a =>
    simp only [normaliseParts, returns_bind, returns_pure] at hrun
    obtain ⟨f', k, hf, a', m, ha, rfl, rfl⟩ := hrun
    obtain ⟨hnf, hna⟩ := h.two hn hw.1 hw.2 hf ha
    -- What is applied is at rest, so its head is kept as well.
    have hinside : Inside (env.rules hclosed) (f.nameless []) (f'.nameless []) := by
      obtain ⟨v, hv, hinside⟩ := hnf.inside
      obtain ⟨j, hj⟩ := whnf_of_rests hclosed hw.1.over (hrests.head hv)
      have hform := whnf_form hclosed hw.1.over
      rw [form?_of_returns hj, hv] at hform
      rwa [Option.some.inj hform]
    exact ⟨hnf.next.trans hna.next, ⟨hnf.below.mono hna.next, hna.below⟩,
      .app hinside hna.devs, again_two hnf.again hna.next hna.again app⟩
  | case scrut branches =>
    simp only [normaliseParts, returns_bind, returns_pure] at hrun
    obtain ⟨scrut', k, hscrut, branches', m, hbranches, rfl, rfl⟩ := hrun
    have hnscrut := h.term hn hw.1 hscrut
    have hnbranches := h.branches (hn.trans hnscrut.next)
      (Branches.AllBelow.mono hnscrut.next hw.2) hbranches
    exact ⟨hnscrut.next.trans hnbranches.next,
      ⟨hnscrut.below.mono hnbranches.next, hnbranches.below⟩,
      .case hnscrut.devs hnbranches.devs,
      again_two hnscrut.again hnbranches.next hnbranches.again case⟩
  | absurd scrut =>
    simp only [normaliseParts, returns_bind, returns_pure] at hrun
    obtain ⟨scrut', k, hscrut, rfl, rfl⟩ := hrun
    have hnscrut := h.term (t := scrut) hn hw hscrut
    refine ⟨hnscrut.next, hnscrut.below, .absurd hnscrut.devs, fun j hj => ?_⟩
    obtain ⟨k', hle, hk'⟩ := hnscrut.again j hj
    exact ⟨k', hle, returns_bind.2 ⟨scrut', k', hk', rfl⟩⟩

lemma succ_term (h : env.NormalisesAt hclosed n₀ fuel) (hbodies : env.BodiesBelow n₀)
    (hn : n₀ ≤ n) (ht : t.AllBelow n) (hrun : Returns (env.normaliseWith (fuel + 1) t) n u m) :
    env.Normalised hclosed (fuel + 1) n t u m := by
  rw [normaliseWith_succ] at hrun
  obtain ⟨w, k, hw, hrun⟩ := returns_bind.1 hrun
  have hform := whnf_form hclosed ht.over
  rw [form?_of_returns hw] at hform
  have hrests := Nameless.eval_rests hform.symm
  have hwhnf := Whnf.of_whnf hw
  have hwbelow := hwhnf.allBelow hbodies hn ht (List.forall_mem_nil _)
  have hsteps := (hwhnf.reduct (agrees_rules hclosed fun x => x.id < n) (fun _ hx => hx) ht.over
    (List.forall_mem_nil _)).steps
  have hparts := h.parts (hn.trans hwhnf.next) hwbelow hrests hrun
  refine ⟨hwhnf.next.trans hparts.next, hparts.below,
    (Devs.of_headReduces hsteps).trans hparts.inside.devs, ⟨_, hform.symm, hparts.inside⟩,
    fun j hj => ?_⟩
  -- The normal form is at rest, so reduction goes to its parts at once.
  obtain ⟨i, hi⟩ := whnf_of_rests hclosed (hparts.below.mono hj).over (hparts.inside.rests hrests)
  have hji := env.whnf_forward u hi
  obtain ⟨j', hij, hj'⟩ := hparts.again i (by omega)
  refine ⟨j', hji.trans hij, ?_⟩
  rw [normaliseWith_succ]
  exact returns_bind.2 ⟨u, i, hi, hj'⟩

lemma succ_branches (h : env.NormalisesAt hclosed n₀ fuel) {bs : Branches} (hn : n₀ ≤ n)
    (hbs : bs.AllBelow n) (hrun : Returns (env.normaliseBranches (fuel + 1) bs) n cs m) :
    env.NormalisedBranches hclosed (fuel + 1) n bs cs m := by
  cases bs with
  | nil =>
    obtain ⟨rfl, rfl⟩ := returns_pure.1 hrun
    exact ⟨le_refl n, hbs, .refl, fun k _ => ⟨k, le_refl k, rfl⟩⟩
  | cons c fields body rest =>
    simp only [normaliseBranches, returns_bind, returns_pure] at hrun
    obtain ⟨body', k, hbody, rest', m, hrest, rfl, rfl⟩ := hrun
    have hnbody := h.term hn hbs.2.1 hbody
    have hnrest := h.branches (hn.trans hnbody.next)
      (Branches.AllBelow.mono hnbody.next hbs.2.2) hrest
    have hnext := hnbody.next.trans hnrest.next
    refine ⟨hnext, ⟨fun v hv => lt_of_lt_of_le (hbs.1 v hv) hnext,
      hnbody.below.mono hnrest.next, hnrest.below⟩, .arm c fields.length ?_ hnrest.devs,
      again_two hnbody.again hnrest.next hnrest.again (Branches.cons c fields)⟩
    exact hnbody.devs.close (AllBelow.over hbs.2.1) hnbody.below.over _

end NormalisesAt

/-- Normal forms are developments at rest, by induction on the depth. -/
lemma normalisesAt (hclosed : env.Closed) (hbodies : env.BodiesBelow n₀) (fuel : Nat) :
    env.NormalisesAt hclosed n₀ fuel := by
  induction fuel with
  | zero =>
    refine ⟨fun _ _ hrun => ?_, fun _ _ hrun => ?_⟩
    · simp [normaliseWith] at hrun
    · simp [normaliseBranches] at hrun
  | succ fuel ih => exact ⟨ih.succ_term hbodies, ih.succ_branches⟩

/-- A normal form is returned as it is. -/
lemma normalise_again (hclosed : env.Closed) (hbodies : env.BodiesBelow n₀) (hn : n₀ ≤ n)
    (ht : t.AllBelow n) (hrun : Returns (env.normalise t) n u m) :
    n ≤ m ∧ u.AllBelow m ∧ ∀ k, m ≤ k → ∃ k', k ≤ k' ∧ Returns (env.normalise u) k u k' :=
  have h := (normalisesAt hclosed hbodies env.fuel).term hn ht hrun
  ⟨h.next, h.below, h.again⟩

end Env

end Clausal
