import Clausal.Proofs.Refinement
import Clausal.Proofs.SplitFree

/-!
# What type checking says about a term

A term without case splits that passes the type checker mentions only
variables of the context.  (A case split on anything but a variable is reduced
before it is checked, so the checker does not see all of it.)  A type inferred
for such a term has no case splits either.
-/

namespace Clausal

open Eval Telescope Term

variable {Γ Δ : Telescope} {type t : Term}

namespace Env

variable {env : Env}

/-! ### Variables of a checked term -/

lemma contextVar?_eq_some (h : contextVar? Γ t = some v) : t = .var v ∧ v ∈ Γ.vars := by
  obtain ⟨hvar, hmem⟩ := Option.filter_eq_some_iff.1 h
  refine ⟨?_, contains_iff.1 hmem⟩
  cases t <;> simp_all [var?]

lemma over_concat (h : t.Over (reach (Γ ++ [(v, type)]))) : t.Over (Γ.reach.bind [v]) :=
  h.mono (Γ.reach_concat_le v type)

mutual

/-- What is inferred or checked is over its context, by induction on the fuel. -/
lemma synthWith_over : (fuel : Nat) → ∀ {Γ t type n m k}, t.SplitFree k →
    Yields (env.synthWith fuel Γ t) n type m → t.Over Γ.reach
  | 0, _, _, _, _, _, _, _, h => (returns_outOfFuel h).elim
  | fuel + 1, Γ, t, _, _, _, _, ht, h => by
    cases t with
    | univ | global => trivial
    | var v =>
      rw [synthWith] at h
      split at h
      · next htype => exact mem_vars (mem_of_type? htype)
      · simp at h
    | pi v dom cod =>
      simp only [synthWith, yields_bind] at h
      obtain ⟨_, _, hdom, _, _, hcod, -⟩ := h
      exact ⟨checkWith_over fuel ht.2.1 hdom, over_concat (checkWith_over fuel ht.2.2 hcod)⟩
    | lam v dom body =>
      simp only [synthWith, yields_bind] at h
      obtain ⟨_, _, hdom, _, _, hbody, -⟩ := h
      exact ⟨checkWith_over fuel ht.2.1 hdom, over_concat (synthWith_over fuel ht.2.2 hbody)⟩
    | app head arg =>
      simp only [synthWith, yields_bind] at h
      obtain ⟨_, _, hhead, _, _, -, h⟩ := h
      refine ⟨synthWith_over fuel ht.1 hhead, ?_⟩
      split at h
      · simp only [yields_bind] at h
        obtain ⟨_, _, harg, -⟩ := h
        exact checkWith_over fuel ht.2 harg
      · simp at h
    | ann t type =>
      simp only [synthWith, yields_bind] at h
      obtain ⟨_, _, htype, _, _, hterm, -⟩ := h
      exact ⟨checkWith_over fuel ht.1 hterm, checkWith_over fuel ht.2 htype⟩
    | case => exact ht.elim
    | absurd => exact (yields_throw h).elim

lemma checkWith_over : (fuel : Nat) → ∀ {Γ t expected n m k u}, t.SplitFree k →
    Yields (env.checkWith fuel Γ t expected) n u m → t.Over Γ.reach
  | 0, _, _, _, _, _, _, _, _, h => (returns_outOfFuel h).elim
  | fuel + 1, Γ, t, _, _, _, _, _, ht, h => by
    cases t with
    | lam v dom body =>
      simp only [checkWith, yields_bind] at h
      obtain ⟨_, _, -, h⟩ := h
      split at h
      · simp only [yields_bind] at h
        obtain ⟨_, _, hdom, b, _, -, h⟩ := h
        refine ⟨checkWith_over fuel ht.2.1 hdom, ?_⟩
        split at h
        · simp only [yields_bind] at h
          obtain ⟨_, _, -, hbody⟩ := h
          exact over_concat (checkWith_over fuel ht.2.2 hbody)
        · simp at h
      · exact checkSynth_over fuel ht h
    | case => exact ht.elim
    | absurd scrut =>
      simp only [checkWith, checkAbsurd] at h
      split at h
      · simp at h
      · next v hv =>
          obtain ⟨rfl, hmem⟩ := contextVar?_eq_some hv
          exact hmem
    | univ | var | global | pi | app | ann => exact checkSynth_over fuel ht h

lemma checkSynth_over : (fuel : Nat) → ∀ {Γ t expected n m k u}, t.SplitFree k →
    Yields (env.checkSynth fuel Γ t expected) n u m → t.Over Γ.reach
  | 0, _, _, _, _, _, _, _, _, h => (returns_outOfFuel h).elim
  | fuel + 1, _, _, _, _, _, _, _, ht, h => by
    simp only [checkSynth, yields_bind] at h
    obtain ⟨_, _, hsynth, -⟩ := h
    exact synthWith_over fuel ht hsynth

end

/-- A checked term without case splits is over the context. -/
lemma check_over (ht : t.SplitFree k) (h : Yields (env.check Γ t type) n u m) :
    t.Over Γ.reach := checkWith_over env.fuel ht h

/-- The domains of a function literal whose type is inferred.  Its body may
split cases. -/
lemma synthWith_lams_within {fuel : Nat} (hΔ : Δ.All SplitFree k)
    (h : Yields (env.synthWith fuel Γ (Δ.lams body)) n type m) : Δ.Within Γ.reach := by
  induction Δ generalizing fuel n m type Γ with
  | nil => trivial
  | cons e Δ ih =>
    obtain ⟨v, dom⟩ := e
    obtain ⟨hdom, hΔ⟩ := List.forall_mem_cons.1 hΔ
    cases fuel with
    | zero => exact (returns_outOfFuel h).elim
    | succ fuel =>
      simp only [lams, List.foldr_cons, synthWith, yields_bind] at h
      obtain ⟨_, _, hcheck, _, _, hbody, -⟩ := h
      exact ⟨checkWith_over fuel hdom.2 hcheck, (ih hΔ hbody).mono (Γ.reach_concat_le v dom)⟩

/-- The domains of a checked function literal, whose body may split cases. -/
lemma check_lams_within (hΔ : Δ.All SplitFree k)
    (h : Yields (env.check Γ (Δ.lams body) type) n u m) : Δ.Within Γ.reach := by
  rw [check] at h
  generalize env.fuel = fuel at h
  induction Δ generalizing fuel n m type u Γ with
  | nil => trivial
  | cons e Δ ih =>
    obtain ⟨v, dom⟩ := e
    obtain ⟨hdom, hΔ'⟩ := List.forall_mem_cons.1 hΔ
    cases fuel with
    | zero => exact (returns_outOfFuel h).elim
    | succ fuel =>
      simp only [lams, List.foldr_cons, checkWith, yields_bind] at h
      obtain ⟨_, _, -, h⟩ := h
      split at h
      · -- A literal is checked against a function type.
        simp only [yields_bind] at h
        obtain ⟨_, _, hcheck, b, _, -, h⟩ := h
        refine ⟨checkWith_over fuel hdom.2 hcheck, ?_⟩
        split at h
        · simp only [yields_bind] at h
          obtain ⟨_, _, -, hbody⟩ := h
          exact (ih hΔ' fuel hbody).mono (Γ.reach_concat_le v dom)
        · simp at h
      · cases fuel with
        | zero => exact (returns_outOfFuel h).elim
        | succ fuel =>
          simp only [checkSynth, yields_bind] at h
          obtain ⟨_, _, hsynth, -⟩ := h
          exact synthWith_lams_within (Δ := (v, dom) :: Δ) hΔ hsynth

/-! ### Inferred types -/

/-- Inferred types split no cases if those of the context and the signature do not. -/
lemma synthWith_splitFree (hkeeps : env.Keeps SplitFree n₀)
    (hsig : ∀ ⦃g : Name⦄ ⦃type : Term⦄, env.sig.type? g = some type → type.SplitFree n₀) :
    (fuel : Nat) → ∀ {Γ t type n m}, n₀ ≤ n → Γ.All SplitFree n → t.SplitFree n →
    Yields (env.synthWith fuel Γ t) n type m → type.SplitFree m
  | 0, _, _, _, _, _, _, _, _, h => (returns_outOfFuel h).elim
  | fuel + 1, Γ, t, type, n, m, hn, hΓ, ht, h => by
    have hP := hkeeps.hereditary
    cases t with
    | univ =>
      obtain ⟨rfl, rfl⟩ := yields_pure.1 h
      trivial
    | var v =>
      rw [synthWith] at h
      split at h
      · next htype =>
          obtain ⟨rfl, rfl⟩ := yields_pure.1 h
          exact (hΓ _ (mem_of_type? htype)).2
      · simp at h
    | global name =>
      rw [synthWith] at h
      split at h
      · next htype =>
          obtain ⟨rfl, rfl⟩ := yields_pure.1 h
          exact (hsig htype).mono hn
      · simp at h
    | pi v dom cod =>
      simp only [synthWith, yields_bind, yields_pure] at h
      obtain ⟨_, _, -, _, _, -, rfl, -⟩ := h
      trivial
    | lam v dom body =>
      simp only [synthWith, yields_bind, yields_pure] at h
      obtain ⟨_, k, hdom, cod, l, hbody, rfl, rfl⟩ := h
      have hk := checkWith_forward fuel _ _ _ hdom
      have hl := synthWith_forward fuel _ _ hbody
      have hΓ' : All SplitFree k (Γ ++ [(v, dom)]) := fun e he => by
        rcases List.mem_append.1 he with he | he
        · exact hP.telescope_mono hΓ hk e he
        · rw [List.mem_singleton.1 he]
          exact ⟨ht.1.trans_le hk, ht.2.1.mono hk⟩
      have hcod := synthWith_splitFree hkeeps hsig fuel (by omega) hΓ' (ht.2.2.mono hk) hbody
      have hnl := hk.trans hl
      exact ⟨ht.1.trans_le hnl, ht.2.1.mono hnl, hcod⟩
    | app head arg =>
      simp only [synthWith, yields_bind, yields_lift] at h
      obtain ⟨headType, k, hhead, reduced, l, hwhnf, h⟩ := h
      have hk := synthWith_forward fuel _ _ hhead
      have hl := env.whnf_forward _ hwhnf
      have hreduced := hkeeps.whnf (by omega)
        (synthWith_splitFree hkeeps hsig fuel hn hΓ ht.1 hhead) hwhnf
      split at h
      · simp only [yields_bind, yields_liftFresh] at h
        obtain ⟨_, j, harg, rfl, rfl⟩ := h
        have hj := checkWith_forward fuel _ _ _ harg
        exact hP.cod (hreduced.mono hj) (ht.2.mono (by omega))
      · simp at h
    | ann t type =>
      simp only [synthWith, yields_bind, yields_pure] at h
      obtain ⟨_, k, htype, _, l, hterm, rfl, rfl⟩ := h
      have hk := checkWith_forward fuel _ _ _ htype
      have hl := checkWith_forward fuel _ _ _ hterm
      exact ht.2.mono (by omega)
    | case => exact ht.elim
    | absurd => exact (yields_throw h).elim

lemma synth_splitFree (hkeeps : env.Keeps SplitFree n)
    (hsig : ∀ ⦃g : Name⦄ ⦃type : Term⦄, env.sig.type? g = some type → type.SplitFree n)
    (hΓ : Γ.All SplitFree n) (ht : t.SplitFree n) (h : Yields (env.synth Γ t) n type m) :
    type.SplitFree m :=
  synthWith_splitFree hkeeps hsig env.fuel (by omega) hΓ ht h

end Env
end Clausal
