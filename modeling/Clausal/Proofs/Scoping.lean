import Clausal.Proofs.Unifier

/-!
# Dependency order of contexts

Sorting lets an entry wait for all others but not for itself: afterwards every type
mentions earlier entries, and it may mention the variable that it is the type of.
-/

namespace Clausal

open List Unify

variable {m : Nat} {u : Unifier}

namespace Telescope

/-- Every type mentions only variables of earlier entries. -/
def Scoped (Γ : Telescope) : Prop :=
  ∀ ⦃Δ Δ' : Telescope⦄ ⦃e : Var × Term⦄, Γ = Δ ++ e :: Δ' →
    ∀ y, e.2.occurs y = true → y ∈ Δ.vars

/-- Every type mentions only variables of earlier entries, and perhaps its own. -/
def Ordered (Γ : Telescope) : Prop :=
  ∀ ⦃Δ Δ' : Telescope⦄ ⦃e : Var × Term⦄, Γ = Δ ++ e :: Δ' →
    ∀ y, e.2.occurs y = true → y = e.1 ∨ y ∈ Δ.vars

variable {Γ : Telescope}

lemma Scoped.ordered (h : Γ.Scoped) : Γ.Ordered :=
  fun _ _ _ hΓ y hy => .inr (h hΓ y hy)

protected lemma Scoped.nil : Scoped [] := by
  intro Δ Δ' e h
  simp at h

protected lemma Scoped.concat (h : Γ.Scoped) {e : Var × Term} (he : e.2.Over Γ.reach) :
    Scoped (Γ ++ [e]) := by
  intro Δ Δ' e' heq y hy
  rcases eq_nil_or_concat Δ' with rfl | ⟨Δ', e'', rfl⟩
  · obtain ⟨rfl, hlast⟩ := append_inj' heq rfl
    obtain rfl := singleton_inj.1 hlast
    exact he.occurs hy
  · have hsplit : Γ ++ [e] = (Δ ++ e' :: Δ') ++ [e''] := by simpa using heq
    exact h (append_inj' hsplit rfl).1 y hy

lemma Ordered.over (h : Γ.Ordered) : ∀ e ∈ Γ, e.2.Over Γ.reach := by
  intro e he
  obtain ⟨Δ, Δ', rfl⟩ := append_of_mem he
  refine Term.over_iff_occurs.2 fun y hy => ?_
  change y ∈ (Δ ++ e :: Δ').map (·.1)
  rcases h rfl y hy with rfl | hy
  · simp
  · rw [map_append]
    exact mem_append_left _ hy

/-- Without repetitions, what is missing is that no type mentions its own variable. -/
lemma Ordered.scoped_iff (h : Γ.Ordered) (hnodup : Γ.vars.Nodup) :
    Γ.Scoped ↔ ∀ e ∈ Γ, e.2.occurs e.1 = false := by
  constructor
  · intro hscoped e he
    obtain ⟨Δ, Δ', rfl⟩ := append_of_mem he
    by_contra hoccurs
    have hmem : e.1 ∈ vars Δ := hscoped rfl e.1 (by simpa using hoccurs)
    have hsplit : (vars Δ ++ e.1 :: vars Δ').Nodup := by simpa [vars] using hnodup
    exact (nodup_append.1 hsplit).2.2 e.1 hmem e.1 mem_cons_self rfl
  · intro hown Δ Δ' e hΓ y hy
    refine (h hΓ y hy).resolve_left ?_
    rintro rfl
    rw [hown e (by simp [hΓ])] at hy
    cases hy

/-! ### Sorting -/

/-- In a sorted telescope, what a type mentions of the entries comes earlier, or
is the variable itself. -/
lemma sortUpTo?_sorted (h : sortUpTo? n Γ = some Δ) :
    ∀ ⦃before after : Telescope⦄ ⦃e : Var × Term⦄, Δ = before ++ e :: after →
      ∀ y, e.2.occurs y = true → y ∈ Δ.vars → y = e.1 ∨ y ∈ before.vars := by
  fun_induction sortUpTo? n Γ generalizing Δ with
  | case1 =>
    cases h
    intro before after e he
    simp at he
  | case2 | case4 => cases h
  | case3 n Γ _ entry others hready ih =>
    obtain ⟨rest, hrest, rfl⟩ := Option.map_eq_some_iff.1 h
    -- The first entry was ready among all, and the others are sorted after it.
    obtain ⟨pre, post, rfl, rfl, hfirst, -⟩ := takeReady?_eq_some hready
    have hperm := ((sortUpTo?_perm hrest).cons entry).trans perm_middle.symm
    intro before after e he y hy hmem
    cases before with
    | nil =>
      obtain ⟨rfl, rfl⟩ := List.cons.inj he
      have hpending : y ∈ vars _ := (hperm.map _).mem_iff.1 hmem
      have hwaits := all_eq_true.1 hfirst y (Term.mem_freeVars.2 hy)
      exact .inl (by simpa [hpending] using hwaits)
    | cons b before =>
      obtain ⟨rfl, rfl⟩ := List.cons.inj he
      rcases mem_cons.1 hmem with rfl | hmem
      · exact .inr mem_cons_self
      · exact (ih hrest rfl y hy hmem).imp_right (mem_cons_of_mem _)

end Telescope

/-! ### Unification -/

namespace Unify

lemma Move.ordered (hordered : g.state.context.Ordered) (hsorts : g'.Sorts Γ (· ∈ Γ.vars))
    (h : Move env g g') : g'.state.context.Ordered := by
  cases h with
  | drop | parts => exact hordered
  | solve _ _ _ _ hstate =>
    -- Every variable that a type mentions is left, so sorting has put it earlier.
    obtain ⟨Δ, hsort⟩ := (solved_of_solve hstate).sorted
    intro before after e he y hy
    have hentry := hsorts.types e (by rw [he]; simp)
    obtain ⟨hmem, hnone⟩ := hentry.1.occurs hy
    exact Telescope.sortUpTo?_sorted hsort he y hy (hsorts.cover y hmem hnone)

/-- Every move keeps the context in order. -/
lemma moves_ordered (hclosed : env.Closed) (hall : g.All Reach.closed.Bounds)
    (hsorts : g.Sorts Γ (· ∈ Γ.vars)) (hordered : g.state.context.Ordered)
    (h : Relation.ReflTransGen (Move env) g g') : g'.state.context.Ordered := by
  induction h with
  | refl => exact hordered
  | tail hmoves hmove ih =>
    exact hmove.ordered ih (moves_sorts hclosed (fun _ hx => hx) hall hsorts (hmoves.tail hmove))

end Unify

section

variable {env : Env} (hclosed : env.Closed) {Γ : Telescope} (hΓ : Γ.Ordered) {n : Nat}
  (hbehind : ∀ y ∈ Γ.vars, y.id < n) {equations : List Constraint}
  (hequations : ∀ e ∈ equations, e.1.Over Γ.reach ∧ e.2.Over Γ.reach)

include hΓ hbehind hequations

lemma Unify.Stage.start_all : Stage.All Reach.closed.Bounds ⟨⟨Γ, .empty⟩, equations, n⟩ :=
  ⟨fun e he => (hequations e he).imp (·.weaken hbehind) (·.weaken hbehind), Subst.All.empty,
    fun e he => ⟨hbehind e.1 (Telescope.mem_vars he), (hΓ.over e he).weaken hbehind⟩⟩

include hclosed

variable (hrun : Eval.Returns (unify env Γ equations) n (.ok (.success u)) m)

include hrun

/-- Solving equations over a context in dependency order leaves a context in which
each type mentions only earlier entries and perhaps its own variable. -/
lemma Env.ordered_of_unify :
    u.context.Ordered := by
  obtain ⟨g, hmoves, hend⟩ := run_moves (g := ⟨⟨Γ, .empty⟩, equations, n⟩) hrun
  have hordered := moves_ordered hclosed (Stage.start_all hΓ hbehind hequations)
    (.start hΓ.over hequations n) hΓ hmoves
  cases hend with
  | success => exact hordered
  | front _ _ _ hcloses => cases hcloses

lemma Env.maps_of_unify :
    u.subst.entries.Maps Γ.reach u.context.reach := by
  obtain ⟨g, hmoves, hend⟩ := run_moves (g := ⟨⟨Γ, .empty⟩, equations, n⟩) hrun
  have hsorts := moves_sorts hclosed (fun _ hx => hx)
    (Stage.start_all hΓ hbehind hequations) (.start hΓ.over hequations n) hmoves
  cases hend with
  | success => exact hsorts.maps
  | front _ _ _ hcloses => cases hcloses

end

/-- After unification over a well-scoped context, types mention earlier entries and
perhaps their own variable; the context is well scoped exactly if none does. -/
theorem Env.unify_ordered {env : Env} (hclosed : env.Closed) {Γ : Telescope}
    (hnodup : Γ.vars.Nodup) (hscoped : Γ.Scoped) {n : Nat} (hbehind : ∀ y ∈ Γ.vars, y.id < n)
    {equations : List Constraint}
    (hequations : ∀ e ∈ equations, e.1.Over Γ.reach ∧ e.2.Over Γ.reach) {u : Unifier} {m : Nat}
    (hrun : Eval.Returns (unify env Γ equations) n (.ok (.success u)) m) :
    u.context.Ordered ∧ (u.context.Scoped ↔ ∀ e ∈ u.context, e.2.occurs e.1 = false) := by
  have hordered := ordered_of_unify hclosed hscoped.ordered hbehind hequations hrun
  have hkeeps := (agrees_rules hclosed fun _ => False).keeps.mono (Nat.zero_le n)
  have hvars : u.context.vars.Nodup := by
    refine (unify_success hkeeps (fun e he => ⟨hbehind e.1 (Telescope.mem_vars he), ?_⟩)
      (fun e he => (hequations e he).imp (·.weaken hbehind) (·.weaken hbehind)) hrun).2.2.1 hnodup
    exact (hscoped.ordered.over e he).weaken hbehind
  exact ⟨hordered, hordered.scoped_iff hvars⟩

namespace Families

lemma numbers_scoped : numbers.Scoped :=
  (Telescope.Scoped.nil.concat (e := (n, nat)) trivial).concat (e := (x, const (.var n)))
    (by simp [const, Term.Over, Telescope.reach, Telescope.vars])

/-- The first number is the successor of the second. -/
def successor : List Constraint := [(.var n, succ (.var x))]

/-- The second number, with a type that mentions it. -/
def knotted : Telescope := [(x, const (succ (.var x)))]

lemma unify_successor :
    Eval.Returns (unify env numbers successor) 2
      (.ok (.success ⟨knotted, ⟨[(n, succ (.var x))]⟩⟩)) 2 := rfl

/-- Solving a variable whose type the solution depends on makes a type mention its
own variable. -/
theorem unify_unscoped :
    env.Closed ∧ numbers.vars.Nodup ∧ numbers.Scoped ∧
      (∀ e ∈ successor, e.1.Over numbers.reach ∧ e.2.Over numbers.reach) ∧
      ∃ u, Eval.Returns (unify env numbers successor) 2 (.ok (.success u)) 2 ∧
        ¬ u.context.Scoped := by
  refine ⟨env_closed, by decide, numbers_scoped, ?_, _, unify_successor, fun h => ?_⟩
  · simp [successor, succ, numbers, Telescope.reach, Telescope.vars, Term.Over]
  · have hknot : knotted = [] ++ (x, const (succ (.var x))) :: [] := rfl
    have hmem := h hknot x rfl
    cases hmem

theorem unify_ordered_successor :
    ∃ u, Eval.Returns (unify env numbers successor) 2 (.ok (.success u)) 2 ∧
      u.context.Ordered ∧ (u.context.Scoped ↔ ∀ e ∈ u.context, e.2.occurs e.1 = false) := by
  refine ⟨_, unify_successor, Env.unify_ordered env_closed (by decide) numbers_scoped (by decide) ?_
    unify_successor⟩
  simp [successor, succ, numbers, Telescope.reach, Telescope.vars, Term.Over]

end Families

end Clausal
