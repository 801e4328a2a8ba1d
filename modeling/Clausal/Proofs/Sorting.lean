import Clausal.Proofs.Scoping
import Mathlib.Data.Fintype.EquivFin
import Mathlib.Data.Fintype.Sets

/-!
# Sorting telescopes

Sorting fails only where entries depend on each other in a cycle.  Of all orders in
which no type mentions a later entry it finds the one that keeps closest to the order
that was there.
-/

namespace Clausal.Telescope

open List Relation

variable {Γ Δ : Telescope} {e : Var × Term} {v : Var}

/-- Every type mentions only variables of earlier entries and variables of no entry. -/
def InOrder (Γ : Telescope) : Prop :=
  ∀ ⦃before after : Telescope⦄ ⦃e : Var × Term⦄, Γ = before ++ e :: after →
    ∀ y, e.2.occurs y = true → y ∈ before.vars ∨ y ∉ Γ.vars

/-- The type of the one variable mentions the other. -/
def DependsOn (Γ : Telescope) (v w : Var) : Prop :=
  ∃ type, (v, type) ∈ Γ ∧ type.occurs w = true ∧ w ∈ Γ.vars

/-- No type mentions the variable of a later entry. -/
def Backward (Γ : Telescope) : Prop := Γ.Pairwise fun e e' => e.2.occurs e'.1 = false

lemma InOrder.backward (h : Γ.InOrder) (hvars : Γ.vars.Nodup) : Γ.Backward := by
  suffices hsuffix : ∀ before after, Γ = before ++ after → after.Backward from hsuffix [] Γ rfl
  intro before after hΓ
  induction after generalizing before with
  | nil => exact .nil
  | cons e after ih =>
    refine pairwise_cons.2 ⟨fun e' he' => ?_, ih (before ++ [e]) (by simp [hΓ])⟩
    by_contra hoccurs
    have hmem : e'.1 ∈ vars (e :: after) := mem_map_of_mem (mem_cons_of_mem e he')
    rcases h hΓ e'.1 (by simpa using hoccurs) with hbefore | hnone
    · rw [hΓ, vars, map_append] at hvars
      exact disjoint_of_nodup_append hvars hbefore hmem
    · refine hnone ?_
      rw [hΓ, vars, map_append]
      exact mem_append_right _ hmem

/-! ### Failure -/

lemma takeReady?_eq_none (h : takeReady? pending Γ = none) :
    ∀ e ∈ Γ, isReady pending e = false := by
  induction Γ with
  | nil => simp
  | cons first Γ ih =>
    rw [takeReady?] at h
    split at h
    · cases h
    · next hwaits =>
      exact forall_mem_cons.2 ⟨by simpa using hwaits, ih (Option.map_eq_none_iff.1 h)⟩

/-- Sorting that fails is stuck with entries none of which is ready. -/
lemma exists_stuck (h : sortUpTo? n Γ = none) (hn : Γ.length ≤ n) :
    ∃ Δ : Telescope, Δ <+ Γ ∧ Δ ≠ [] ∧ ∀ e ∈ Δ, isReady Δ.vars e = false := by
  fun_induction sortUpTo? n Γ with
  | case1 => cases h
  | case2 => simp at hn
  | case3 n Γ _ entry others hready ih =>
    obtain ⟨before, after, rfl, rfl, -⟩ := takeReady?_eq_some hready
    obtain ⟨Δ, hsub, hΔ⟩ := ih (Option.map_eq_none_iff.1 h) (by simp at hn ⊢; omega)
    exact ⟨Δ, hsub.trans ((sublist_cons_self entry after).append_left before), hΔ⟩
  | case4 n Γ hne hnone => exact ⟨Γ, .refl Γ, fun hnil => hne hnil, takeReady?_eq_none hnone⟩

/-- Entries that all wait for each other contain a cycle: there are finitely many, and from each of
them a dependency leads to another. -/
lemma exists_cycle (hΔ : Δ ≠ []) (hstuck : ∀ e ∈ Δ, isReady Δ.vars e = false) :
    ∃ v, TransGen Δ.DependsOn v v := by
  by_contra hacyclic
  have hnext : ∀ v ∈ Δ.vars, ∃ w ∈ Δ.vars, Δ.DependsOn v w := by
    intro v hv
    obtain ⟨e, he, rfl⟩ := mem_map.1 hv
    have hwaits : ¬ ∀ w ∈ Δ.vars, e.2.occurs w = true → w = e.1 := by
      rw [← isReady_iff, hstuck e he]
      exact Bool.false_ne_true
    push Not at hwaits
    obtain ⟨w, hw, hoccurs, -⟩ := hwaits
    exact ⟨w, hw, e.2, he, hoccurs, hw⟩
  let below (a b : { v // v ∈ Δ.vars }) : Prop := TransGen Δ.DependsOn b.1 a.1
  have : Std.Irrefl below := ⟨fun a ha => hacyclic ⟨a.1, ha⟩⟩
  obtain ⟨e, he⟩ := exists_mem_of_ne_nil Δ hΔ
  refine (Finite.wellFounded_of_trans_of_irrefl below).induction (C := fun _ => False)
    ⟨e.1, mem_map_of_mem he⟩ fun a ih => ?_
  obtain ⟨w, hw, hdepends⟩ := hnext a.1 a.2
  exact ih ⟨w, hw⟩ (.single hdepends)

lemma DependsOn.mono (hsub : Δ ⊆ Γ) (h : Δ.DependsOn v w) : Γ.DependsOn v w := by
  obtain ⟨type, hmem, hoccurs, hw⟩ := h
  exact ⟨type, hsub hmem, hoccurs, map_subset _ hsub hw⟩

/-- In an order, dependencies lead to earlier places. -/
lemma InOrder.acyclic (h : Γ.InOrder) (hvars : Γ.vars.Nodup) : ¬ TransGen Γ.DependsOn v v := by
  have hstep : ∀ {v w}, Γ.DependsOn v w → Γ.vars.idxOf w < Γ.vars.idxOf v := by
    rintro v w ⟨type, hmem, hoccurs, hw⟩
    obtain ⟨before, after, hΓ⟩ := append_of_mem hmem
    have hsplit : Γ.vars = vars before ++ v :: vars after := by simp [hΓ, vars]
    have hbefore : w ∈ vars before := (h hΓ w hoccurs).resolve_right (not_not.2 hw)
    have hv : v ∉ vars before := fun hv =>
      disjoint_of_nodup_append (hsplit ▸ hvars) hv mem_cons_self
    rw [hsplit, idxOf_append_of_mem hbefore, idxOf_append_of_notMem hv]
    exact Nat.lt_add_right _ (idxOf_lt_length_iff.2 hbefore)
  have hrun : ∀ {w}, TransGen Γ.DependsOn v w → Γ.vars.idxOf w < Γ.vars.idxOf v := by
    intro w hvw
    induction hvw with
    | single hdepends => exact hstep hdepends
    | tail _ hdepends ih => exact (hstep hdepends).trans ih
  exact fun hcycle => lt_irrefl _ (hrun hcycle)

/-! ### The order that is found -/

/-- The first entry of an order waits for no other. -/
lemma Backward.isReady (h : Backward (e :: Δ)) (hperm : (e :: Δ).Perm Γ) :
    isReady Γ.vars e = true := by
  refine isReady_iff.2 fun y hy hoccurs => ?_
  obtain ⟨e', he', rfl⟩ := mem_map.1 hy
  rcases mem_cons.1 (hperm.mem_iff.2 he') with rfl | he'
  · rfl
  · rw [(pairwise_cons.1 h).1 e' he'] at hoccurs
    cases hoccurs

lemma sortUpTo?_backward (h : Γ.Backward) (hn : Γ.length ≤ n) : sortUpTo? n Γ = some Γ := by
  induction n generalizing Γ with
  | zero =>
    obtain rfl := length_eq_zero_iff.1 (Nat.le_zero.1 hn)
    rfl
  | succ n ih =>
    cases Γ with
    | nil => rfl
    | cons e Γ =>
      have hready := h.isReady (.refl (e :: Γ))
      simp [sortUpTo?, takeReady?, hready, ih (pairwise_cons.1 h).2 (by simpa using hn)]

lemma sort?_backward (h : Γ.Backward) : Γ.sort? = some Γ := sortUpTo?_backward h le_rfl

/-- At each place stands the first entry that can stand there. -/
lemma sortUpTo?_earliest {after : Telescope}
    (h : sortUpTo? n Γ = some (before ++ e :: after)) (hperm : (before ++ e' :: after').Perm Γ)
    (hbackward : Backward (before ++ e' :: after')) : e = e' ∨ [e, e'] <+ Γ := by
  fun_induction sortUpTo? n Γ generalizing before with
  | case1 => simp at h
  | case2 | case4 => cases h
  | case3 n Γ _ entry others hready ih =>
    obtain ⟨rest, hrest, heq⟩ := Option.map_eq_some_iff.1 h
    obtain ⟨pre, post, rfl, rfl, -, hpre⟩ := takeReady?_eq_some hready
    cases before with
    | nil =>
      -- The other entry is ready, so it does not stand before the one that was taken.
      obtain ⟨rfl, -⟩ := cons.inj heq
      have hother := hbackward.isReady hperm
      rcases mem_append.1 (hperm.mem_iff.1 mem_cons_self) with hmem | hmem
      · rw [hpre e' hmem] at hother
        cases hother
      · refine (mem_cons.1 hmem).imp Eq.symm fun hmem => ?_
        exact ((singleton_sublist.2 hmem).cons_cons entry).trans (sublist_append_right pre _)
    | cons first before =>
      obtain ⟨rfl, rfl⟩ := cons.inj heq
      refine (ih hrest (hperm.trans perm_middle).cons_inv
        (pairwise_cons.1 hbackward).2).imp_right ?_
      exact fun hsub => hsub.trans ((sublist_cons_self entry post).append_left pre)

/-- Sorting fails just where the dependencies are cyclic.  Otherwise it gives an order, and at each
place the entry that comes first in the telescope among all that can follow there.  A telescope in
order stays as it is. -/
theorem sort?_stable (hvars : Γ.vars.Nodup) (hown : ∀ e ∈ Γ, e.2.occurs e.1 = false) :
    (Γ.sort? = none ↔ ∃ v, TransGen Γ.DependsOn v v) ∧
    (∀ Δ, Γ.sort? = some Δ → Δ.Perm Γ ∧ Δ.InOrder ∧
      ∀ before e after e' after', Δ = before ++ e :: after →
        (before ++ e' :: after').Perm Γ → InOrder (before ++ e' :: after') →
        e = e' ∨ [e, e'] <+ Γ) ∧
    (Γ.InOrder → Γ.sort? = some Γ) := by
  have hsome : ∀ Δ, Γ.sort? = some Δ → Δ.Perm Γ ∧ Δ.InOrder := by
    intro Δ hsort
    have hperm := sort?_perm hsort
    refine ⟨hperm, fun before after e hΔ y hoccurs => or_iff_not_imp_right.2 fun hy => ?_⟩
    refine (sortUpTo?_sorted hsort hΔ y hoccurs (not_not.1 hy)).resolve_left ?_
    rintro rfl
    rw [hown e (hperm.subset (by simp [hΔ]))] at hoccurs
    cases hoccurs
  have hnodup : ∀ {Δ : Telescope}, Δ.Perm Γ → Δ.vars.Nodup :=
    fun hperm => (hperm.map _).nodup_iff.2 hvars
  refine ⟨⟨fun hnone => ?_, fun ⟨v, hcycle⟩ => ?_⟩, fun Δ hsort => ?_,
    fun h => sort?_backward (h.backward hvars)⟩
  · obtain ⟨Δ, hsub, hne, hstuck⟩ := exists_stuck hnone le_rfl
    obtain ⟨v, hcycle⟩ := exists_cycle hne hstuck
    exact ⟨v, hcycle.lift id fun _ _ => DependsOn.mono hsub.subset⟩
  · refine Option.eq_none_iff_forall_ne_some.2 fun Δ hsort => ?_
    obtain ⟨hperm, horder⟩ := hsome Δ hsort
    exact horder.acyclic (hnodup hperm)
      (hcycle.lift id fun _ _ => DependsOn.mono hperm.symm.subset)
  · refine ⟨(hsome Δ hsort).1, (hsome Δ hsort).2, ?_⟩
    rintro before e after e' after' rfl hperm horder
    exact sortUpTo?_earliest hsort hperm (horder.backward (hnodup hperm))

namespace Sorting

def A : Var := ⟨0, "A"⟩
def x : Var := ⟨1, "x"⟩
def y : Var := ⟨2, "y"⟩

/-- The entry in front has the last one as its type, the one between them waits for none. -/
def late : Telescope := [(x, .var A), (y, .univ), (A, .univ)]

theorem sort?_late : late.sort? = some [(y, .univ), (A, .univ), (x, .var A)] ∧
    InOrder [(y, .univ), (A, .univ), (x, .var A)] ∧ ¬ ∃ v, TransGen late.DependsOn v v := by
  have hsort : late.sort? = some [(y, .univ), (A, .univ), (x, .var A)] := by decide
  obtain ⟨hnone, hsome, -⟩ := sort?_stable (Γ := late) (by decide) (by decide)
  exact ⟨hsort, (hsome _ hsort).2.1, fun hcycle => by simp [hnone.2 hcycle] at hsort⟩

end Sorting

end Clausal.Telescope
