import Clausal.Proofs.Hereditary
import Clausal.Proofs.SlidingChecks

/-!
# Runs of unification

A run makes moves: the front equation is dropped, is replaced by the equations
between the arguments of a constructor, or solves a variable.  It halts when no
equation is left, or at an equation that it refutes or cannot decide.
-/

namespace Clausal

open Assignment Eval Fresh List Nameless Subst

variable
  {Q : Term → Prop}

namespace Unify

/-- The solutions so far, the equations that are left, and the supply. -/
structure Stage where
  state : Unifier
  queue : List Constraint
  next : Nat

/-- The sides of an equation under the solutions so far, reduced. -/
def Facing (env : Env) (σ : Subst) (e : Constraint) (n : Nat) (lhs rhs : Term) (m : Nat) : Prop :=
  ∃ k, Returns (env.whnf ((σ.apply e.1).value n)) ((σ.apply e.1).next n) lhs k ∧
    Returns (env.whnf ((σ.apply e.2).value k)) ((σ.apply e.2).next k) rhs m

/-- The front equation is faced, and what it asks for is done. -/
inductive Move (env : Env) : Stage → Stage → Prop
  | drop {state : Unifier} {e : Constraint} (queue : List Constraint) {lhs rhs : Term}
      {n k m : Nat} : Facing env state.subst e n lhs rhs k →
      Returns (demand env state.context lhs rhs) k .nothing m →
      Move env ⟨state, e :: queue, n⟩ ⟨state, queue, m⟩
  | parts {state : Unifier} {e : Constraint} (queue : List Constraint) {lhs rhs : Term}
      {equations : List Constraint} {n k m : Nat} : Facing env state.subst e n lhs rhs k →
      Returns (demand env state.context lhs rhs) k (.parts equations) m →
      Move env ⟨state, e :: queue, n⟩ ⟨state, equations ++ queue, m⟩
  | solve {state : Unifier} {e : Constraint} (queue : List Constraint) {lhs rhs t : Term}
      {v : Var} {state' : Unifier} {n k m : Nat} : Facing env state.subst e n lhs rhs k →
      Returns (demand env state.context lhs rhs) k (.solve v t) m →
      t.occurs v = false → (solve state.context state.subst v t).value m = some state' →
      Move env ⟨state, e :: queue, n⟩
        ⟨state', queue, (solve state.context state.subst v t).next m⟩

/-- A demand that ends the run, and the answer to it. -/
inductive Closes (env : Env) (state : Unifier) (lhs rhs : Term) (n : Nat) :
    Demand → Except UnifyError Unified → Nat → Prop
  | clash : Closes env state lhs rhs n .impossible (.ok .conflict) n
  | stuck : Closes env state lhs rhs n .unclear (.error (.stuck lhs rhs)) n
  | cycle {v : Var} {t : Term} : t.occurs v = true → (env.ctorSpine? t).isSome = true →
      Closes env state lhs rhs n (.solve v t) (.ok .conflict) n
  | occurs {v : Var} {t : Term} : t.occurs v = true → ¬ (env.ctorSpine? t).isSome = true →
      Closes env state lhs rhs n (.solve v t) (.error (.occurs v t)) n
  | illScoped {v : Var} {t : Term} : t.occurs v = false →
      (solve state.context state.subst v t).value n = none →
      Closes env state lhs rhs n (.solve v t) (.error .illScoped)
        ((solve state.context state.subst v t).next n)

/-- Where a run stops, and with which answer. -/
inductive Halts (env : Env) : Stage → Except UnifyError Unified → Nat → Prop
  | success (state : Unifier) (n : Nat) : Halts env ⟨state, [], n⟩ (.ok (.success state)) n
  | front {state : Unifier} {e : Constraint} (queue : List Constraint) {lhs rhs : Term}
      {d : Demand} {r : Except UnifyError Unified} {n k l m : Nat} :
      Facing env state.subst e n lhs rhs k →
      Returns (demand env state.context lhs rhs) k d l → Closes env state lhs rhs l d r m →
      Halts env ⟨state, e :: queue, n⟩ r m

/-- One side is a variable of the context, and the other one is its value. -/
def Solvable (Γ : Telescope) (lhs rhs : Term) (v : Var) (t : Term) : Prop :=
  v ∈ Γ.vars ∧ (lhs = .var v ∧ rhs = t ∨ rhs = .var v ∧ lhs = t)

/-- Both sides have the form of a constructor. -/
structure Constructed (env : Env) (lhs rhs : Term) (c d : Ctor) (args args' : List Term) :
    Prop where
  left : env.ctorSpine? lhs = some (c, args)
  right : env.ctorSpine? rhs = some (d, args')

/-! ### Runs -/

lemma flexible?_eq_some (h : flexible? Γ t = some v) : t = .var v ∧ v ∈ Γ.vars := by
  obtain ⟨ht, hv⟩ := Option.filter_eq_some_iff.1 h
  refine ⟨?_, Telescope.contains_iff.1 hv⟩
  cases t <;> simp [Term.var?] at ht
  rw [ht]

lemma solveLater_cases (hv : v ∈ Γ.vars) (hw : w ∈ Γ.vars) :
    ∃ x t, solveLater Γ v w = .solve x t ∧ Solvable Γ (.var v) (.var w) x t := by
  have hleft : Solvable Γ (.var v) (.var w) v (.var w) := ⟨hv, .inl ⟨rfl, rfl⟩⟩
  have hright : Solvable Γ (.var v) (.var w) w (.var v) := ⟨hw, .inr ⟨rfl, rfl⟩⟩
  unfold solveLater
  split
  · split
    · exact ⟨v, _, rfl, hleft⟩
    · exact ⟨w, _, rfl, hright⟩
  · exact ⟨w, _, rfl, hright⟩

/-- What an equation may ask for, and why. -/
inductive Asks (env : Env) (Γ : Telescope) (lhs rhs : Term) (n : Nat) : Demand → Nat → Prop
  | same {v : Var} : lhs = .var v → rhs = .var v → Asks env Γ lhs rhs n .nothing n
  | accepted {m : Nat} : flexible? Γ lhs = none → flexible? Γ rhs = none →
      Returns (env.convertible lhs rhs) n true m → Asks env Γ lhs rhs n .nothing m
  | solve {v : Var} {t : Term} : Solvable Γ lhs rhs v t → Asks env Γ lhs rhs n (.solve v t) n
  | parts {c d : Ctor} {args args' : List Term} {m : Nat} :
      Constructed env lhs rhs c d args args' → lhs.spine.1 = rhs.spine.1 →
      args.length = args'.length → Asks env Γ lhs rhs n (.parts (args.zip args')) m
  | impossible {c d : Ctor} {args args' : List Term} {m : Nat} :
      Constructed env lhs rhs c d args args' →
      ¬ (lhs.spine.1 = rhs.spine.1 ∧ args.length = args'.length) →
      Asks env Γ lhs rhs n .impossible m
  | unclear {m : Nat} : Asks env Γ lhs rhs n .unclear m

lemma compareRigid_asks (hlhs : flexible? Γ lhs = none) (hrhs : flexible? Γ rhs = none)
    (h : Returns (compareRigid env lhs rhs) n d m) : n ≤ m ∧ Asks env Γ lhs rhs n d m := by
  simp only [compareRigid, returns_bind] at h
  obtain ⟨b, k, hb, h⟩ := h
  have hk := env.convertible_forward lhs rhs hb
  split at h
  · next htrue =>
      obtain ⟨rfl, rfl⟩ := returns_pure.1 h
      exact ⟨hk, .accepted hlhs hrhs (htrue ▸ hb)⟩
  · split at h
    · next c args d' args' hleft hright =>
        split at h
        · next heq =>
            obtain ⟨rfl, rfl⟩ := returns_pure.1 h
            exact ⟨hk, .parts ⟨hleft, hright⟩ heq.1 heq.2⟩
        · next hne =>
            obtain ⟨rfl, rfl⟩ := returns_pure.1 h
            exact ⟨hk, .impossible ⟨hleft, hright⟩ hne⟩
    · obtain ⟨rfl, rfl⟩ := returns_pure.1 h
      exact ⟨hk, .unclear⟩

lemma demand_asks (h : Returns (demand env Γ lhs rhs) n d m) :
    n ≤ m ∧ Asks env Γ lhs rhs n d m := by
  unfold demand at h
  split at h
  · next v w hleft hright =>
      obtain ⟨rfl, hv⟩ := flexible?_eq_some hleft
      obtain ⟨rfl, hw⟩ := flexible?_eq_some hright
      obtain ⟨rfl, rfl⟩ := returns_pure.1 h
      refine ⟨le_refl n, ?_⟩
      split
      · next heq => exact .same rfl (by rw [heq])
      · obtain ⟨x, t, heq, hsolve⟩ := solveLater_cases hv hw
        rw [heq]
        exact .solve hsolve
  · next v hleft _ =>
      obtain ⟨rfl, hv⟩ := flexible?_eq_some hleft
      obtain ⟨rfl, rfl⟩ := returns_pure.1 h
      exact ⟨le_refl n, .solve ⟨hv, .inl ⟨rfl, rfl⟩⟩⟩
  · next w _ hright =>
      obtain ⟨rfl, hw⟩ := flexible?_eq_some hright
      obtain ⟨rfl, rfl⟩ := returns_pure.1 h
      exact ⟨le_refl n, .solve ⟨hw, .inr ⟨rfl, rfl⟩⟩⟩
  · next hleft hright => exact compareRigid_asks hleft hright h

lemma demand_parts (h : Returns (demand env Γ lhs rhs) n (.parts equations) m) :
    n ≤ m ∧ ∃ c d args args', Constructed env lhs rhs c d args args' ∧
      equations = args.zip args' := by
  obtain ⟨hm, hasks⟩ := demand_asks h
  cases hasks with
  | parts hctors => exact ⟨hm, _, _, _, _, hctors, rfl⟩

lemma demand_solve (h : Returns (demand env Γ lhs rhs) n (.solve v t) m) :
    n ≤ m ∧ Solvable Γ lhs rhs v t := by
  obtain ⟨hm, hasks⟩ := demand_asks h
  cases hasks with
  | solve hsolve => exact ⟨hm, hsolve⟩

lemma Facing.next (h : Facing env σ e n lhs rhs m) : n ≤ m := by
  obtain ⟨k, hlhs, hrhs⟩ := h
  have hleft := le_trans (apply_next σ e.1 n) (env.whnf_forward _ hlhs)
  have hright := le_trans (apply_next σ e.2 k) (env.whnf_forward _ hrhs)
  omega

/-- The state after a variable is solved: it leaves the context, and is replaced in
the types of the others and in the solutions so far. -/
structure Solved (Γ : Telescope) (σ : Subst) (v : Var) (t : Term) (n : Nat) (state : Unifier)
    (m : Nat) : Prop where
  next : n ≤ m
  sorted : ∃ Δ, Telescope.sort? Δ = some state.context
  vars : state.context.vars.Perm (Γ.vars.filter (· ≠ v))
  types : ∀ e ∈ state.context, ∃ old ∈ Γ, e.1 = old.1 ∧ (Subst.single v t).Applied n m old.2 e.2
  values : ∀ x, (v = x ∧ state.subst.get? x = some t) ∨
    (v ≠ x ∧ σ.get? x = none ∧ state.subst.get? x = none) ∨
    (v ≠ x ∧ ∃ a b, σ.get? x = some a ∧ state.subst.get? x = some b ∧
      (Subst.single v t).Applied n m a b)

lemma solved_of_solve (h : (solve Γ σ v t).value n = some state) :
    Solved Γ σ v t n state ((solve Γ σ v t).next n) := by
  obtain ⟨hnext, hentries⟩ := applyTelescope_spec v t Γ n
  simp only [solve, value_bind, next_bind] at h ⊢
  split at h
  · next Δ hsort =>
      simp only [value_bind, value_pure, Option.some.injEq] at h
      subst h
      have hperm := Telescope.sort?_perm hsort
      simp only [next_bind, next_pure]
      refine ⟨hnext.trans (insert_next _ _ _ _), ⟨_, hsort⟩, ?_, fun e he => ?_, fun x => ?_⟩
      · have hvars : Telescope.vars (((Subst.single v t).applyTelescope Γ).value n) =
            Γ.vars.filter (· ≠ v) := by
          rw [Telescope.vars_of_forall₂ hentries]
          simp only [Telescope.vars, filter_map]
          rfl
        exact (hperm.map _).trans (.of_eq hvars)
      · obtain ⟨old, hold, hkey, happ⟩ := mem_of_forall₂ hentries (hperm.mem_iff.1 he)
        exact ⟨old, mem_of_mem_filter hold, hkey, happ.mono (by omega) (insert_next _ _ _ _)⟩
      · -- Solutions are changed after the context, from a later supply.
        refine (get?_insert σ v t _ x).imp_right (.imp_right ?_)
        rintro ⟨hne, a, b, ha, hb, happ⟩
        exact ⟨hne, a, b, ha, hb, happ.mono hnext (by omega)⟩
  · simp at h

namespace Solved

variable {Γ : Telescope} {σ : Subst} {v : Var} {t : Term} {n m : Nat}

lemma mem_vars (h : Solved Γ σ v t n state m) :
    x ∈ state.context.vars ↔ x ∈ Γ.vars ∧ x ≠ v := by
  simpa using h.vars.mem_iff (a := x)

lemma get?_eq_none (h : Solved Γ σ v t n state m) :
    state.subst.get? x = none ↔ σ.get? x = none ∧ x ≠ v := by
  rcases h.values x with ⟨rfl, hx⟩ | ⟨hne, hnone, hx⟩ | ⟨hne, a, b, ha, hx, -⟩
  · simp [hx]
  · simp [hx, hnone, Ne.symm hne]
  · simp [hx, ha]

end Solved

/-- A run makes moves until it halts. -/
lemma run_moves (h : Returns (run env fuel g.state g.queue) g.next r m) :
    ∃ g', Relation.ReflTransGen (Move env) g g' ∧ Halts env g' r m := by
  -- Fuel is spent on rounds, and every round but the last one is a move.
  induction fuel generalizing g with
  | zero => simp [run] at h
  | succ fuel ih =>
    obtain ⟨state, queue, n⟩ := g
    cases queue with
    | nil =>
      obtain ⟨rfl, rfl⟩ := returns_pure.1 h
      exact ⟨_, .refl, .success state n⟩
    | cons e queue =>
      simp only [run, returns_bind, returns_lift] at h
      obtain ⟨_, _, ⟨rfl, rfl⟩, lhs, k, hlhs, _, _, ⟨rfl, rfl⟩, rhs, l, hrhs, d, j, hd, h⟩ := h
      have hface : Facing env state.subst e n lhs rhs l := ⟨k, hlhs, hrhs⟩
      cases d with
      | nothing =>
        obtain ⟨g', hmoves, hend⟩ := ih (g := ⟨state, queue, j⟩) h
        exact ⟨g', .head (.drop queue hface hd) hmoves, hend⟩
      | parts equations =>
        obtain ⟨g', hmoves, hend⟩ := ih (g := ⟨state, _, j⟩) h
        exact ⟨g', .head (.parts queue hface hd) hmoves, hend⟩
      | impossible =>
        obtain ⟨rfl, rfl⟩ := returns_pure.1 h
        exact ⟨_, .refl, .front queue hface hd .clash⟩
      | unclear =>
        obtain ⟨rfl, rfl⟩ := returns_pure.1 h
        exact ⟨_, .refl, .front queue hface hd .stuck⟩
      | solve v t =>
        dsimp only at h
        split at h
        · next hoccurs =>
            split at h
            · next hctor =>
                obtain ⟨rfl, rfl⟩ := returns_pure.1 h
                exact ⟨_, .refl, .front queue hface hd (.cycle hoccurs hctor)⟩
            · next hctor =>
                obtain ⟨rfl, rfl⟩ := returns_pure.1 h
                exact ⟨_, .refl, .front queue hface hd (.occurs hoccurs hctor)⟩
        · next hoccurs =>
            have hfree : t.occurs v = false := by simpa using hoccurs
            simp only [returns_bind, returns_lift] at h
            obtain ⟨state', i, ⟨hstate, rfl⟩, h⟩ := h
            cases state' with
            | none =>
              obtain ⟨rfl, rfl⟩ := returns_pure.1 h
              exact ⟨_, .refl, .front queue hface hd (.illScoped hfree hstate)⟩
            | some state' =>
              obtain ⟨g', hmoves, hend⟩ := ih (g := ⟨state', queue, _⟩) h
              exact ⟨g', .head (.solve queue hface hd hfree hstate) hmoves, hend⟩

/-- A run may be continued at the front with a move. -/
lemma Move.run (h : Move env g g')
    (hrun : Returns (run env fuel g'.state g'.queue) g'.next r m) :
    Returns (run env (fuel + 1) g.state g.queue) g.next r m := by
  cases h with
  | drop queue hface hd | parts queue hface hd =>
    obtain ⟨k, hlhs, hrhs⟩ := hface
    simp only [Unify.run, returns_bind, returns_lift]
    exact ⟨_, _, ⟨rfl, rfl⟩, _, _, hlhs, _, _, ⟨rfl, rfl⟩, _, _, hrhs, _, _, hd, hrun⟩
  | solve queue hface hd hfree hstate =>
    obtain ⟨k, hlhs, hrhs⟩ := hface
    simp only [Unify.run, returns_bind, returns_lift]
    refine ⟨_, _, ⟨rfl, rfl⟩, _, _, hlhs, _, _, ⟨rfl, rfl⟩, _, _, hrhs, _, _, hd, ?_⟩
    simp only [hfree, Bool.false_eq_true, if_false, returns_bind, returns_lift]
    exact ⟨_, _, ⟨hstate, rfl⟩, hrun⟩

lemma Halts.run (h : Halts env g r m) (fuel : Nat) :
    Returns (run env (fuel + 1) g.state g.queue) g.next r m := by
  cases h with
  | success state => exact returns_pure.2 ⟨rfl, rfl⟩
  | front queue hface hd hcloses =>
    obtain ⟨k, hlhs, hrhs⟩ := hface
    simp only [Unify.run, returns_bind, returns_lift]
    refine ⟨_, _, ⟨rfl, rfl⟩, _, _, hlhs, _, _, ⟨rfl, rfl⟩, _, _, hrhs, _, _, hd, ?_⟩
    cases hcloses with
    | clash | stuck => exact returns_pure.2 ⟨rfl, rfl⟩
    | cycle hoccurs hctor | occurs hoccurs hctor =>
      simp only [hoccurs, hctor, Bool.false_eq_true, if_true, if_false]
      exact returns_pure.2 ⟨rfl, rfl⟩
    | illScoped hfree hstate =>
      simp only [hfree, Bool.false_eq_true, if_false, returns_bind, returns_lift]
      exact ⟨_, _, ⟨hstate, rfl⟩, returns_pure.2 ⟨rfl, rfl⟩⟩

/-! ### What a move keeps -/

/-- Equations, solutions and context have a property. -/
structure Stage.All (P : Nat → Term → Prop) (g : Stage) : Prop where
  queue : ∀ e ∈ g.queue, P g.next e.1 ∧ P g.next e.2
  subst : g.state.subst.All P g.next
  context : g.state.context.All P g.next

lemma Facing.all (hkeeps : env.Keeps P n) (hσ : σ.All P n) (he : P n e.1 ∧ P n e.2)
    (h : Facing env σ e n lhs rhs m) : P m lhs ∧ P m rhs := by
  have hP := hkeeps.hereditary
  obtain ⟨k, hlhs, hrhs⟩ := h
  have hj := apply_next σ e.1 n
  have hk := hj.trans (env.whnf_forward _ hlhs)
  have hi := hk.trans (apply_next σ e.2 k)
  have hm := env.whnf_forward _ hrhs
  have hleft : P k lhs := hkeeps.whnf hj (hP.apply hσ he.1) hlhs
  have hright : P m rhs :=
    hkeeps.whnf hi (hP.apply (hσ.mono hP hk) (hP.mono hk he.2)) hrhs
  exact ⟨hP.mono (le_trans (apply_next σ e.2 k) hm) hleft, hright⟩

lemma Facing.reduces (hR : env.Agrees R S) (hσ : σ.All S.Bounds n)
    (he : S.Bounds n e.1 ∧ S.Bounds n e.2) (h : Facing env σ e n lhs rhs m) (F : Filling) :
    HeadReduces R (((e.1.nameless []).fill σ.filling).fill F) ((lhs.nameless []).fill F) ∧
      HeadReduces R (((e.2.nameless []).fill σ.filling).fill F)
        ((rhs.nameless []).fill F) := by
  obtain ⟨k, hlhs, hrhs⟩ := h
  have hP := S.hereditary
  have hside {t u : Term} {j l : Nat} (hj : n ≤ j) (ht : S.Bounds n t)
      (hrun : Returns (env.whnf ((σ.apply t).value j)) ((σ.apply t).next j) u l) :
      HeadReduces R (((t.nameless []).fill σ.filling).fill F)
        ((u.nameless []).fill F) := by
    have hσj := hσ.mono hP hj
    have htj := hP.mono hj ht
    have hred := Env.whnf_reduct (hR.upTo _) (S.upTo_behind _) (hP.apply hσj htj) hrun
    have hmoves := hred.steps.fill F
    rwa [hσj.nameless hP (σ.applied t j) htj] at hmoves
  have hk := le_trans (apply_next σ e.1 n) (env.whnf_forward _ hlhs)
  exact ⟨hside (le_refl n) he.1 hlhs, hside hk he.2 hrhs⟩

/-- What passes from applications to arguments passes from the sides to the equations
between their arguments. -/
lemma Constructed.all {d : Ctor}
    (h : Constructed env lhs rhs c d args args')
    (happs : ∀ g args, Q ((Term.global g).apps args) → ∀ a ∈ args, Q a) (hlhs : Q lhs)
    (hrhs : Q rhs) : ∀ e ∈ args.zip args', Q e.1 ∧ Q e.2 := by
  obtain ⟨_, rfl, _⟩ := Env.ctorSpine?_eq_some h.left
  obtain ⟨_, rfl, _⟩ := Env.ctorSpine?_eq_some h.right
  intro e he
  obtain ⟨hleft, hright⟩ := of_mem_zip he
  exact ⟨happs _ _ hlhs _ hleft, happs _ _ hrhs _ hright⟩

lemma Solvable.value (h : Solvable Γ lhs rhs v t) (hlhs : Q lhs) (hrhs : Q rhs) : Q t := by
  obtain ⟨-, ⟨-, rfl⟩ | ⟨-, rfl⟩⟩ := h
  · exact hrhs
  · exact hlhs

lemma Move.next (h : Move env g g') : g.next ≤ g'.next := by
  cases h with
  | drop _ hface hd | parts _ hface hd => exact hface.next.trans (demand_asks hd).1
  | solve _ hface hd _ _ =>
    exact le_trans (hface.next.trans (demand_asks hd).1) (solve_next _ _ _ _ _)

lemma Move.all (hkeeps : env.Keeps P g.next) (hg : g.All P) (h : Move env g g') : g'.All P := by
  have hP := hkeeps.hereditary
  have hnext := h.next
  have hqueue : ∀ e ∈ g.queue.tail, P g'.next e.1 ∧ P g'.next e.2 := fun e he =>
    (hg.queue e (mem_of_mem_tail he)).imp (hP.mono hnext) (hP.mono hnext)
  have hsubst := hg.subst.mono hP hnext
  have hcontext := hP.telescope_mono hg.context hnext
  cases h with
  | drop => exact ⟨hqueue, hsubst, hcontext⟩
  | parts queue hface hd =>
    obtain ⟨hm, _, _, _, _, hctors, rfl⟩ := demand_parts hd
    obtain ⟨hlhs, hrhs⟩ := hface.all hkeeps hg.subst (hg.queue _ mem_cons_self)
    have hparts := hctors.all (fun _ _ h => (hP.apps.1 h).2) (hP.mono hm hlhs) (hP.mono hm hrhs)
    exact ⟨forall_mem_append.2 ⟨hparts, hqueue⟩, hsubst, hcontext⟩
  | @solve state e queue lhs rhs t v state' n k m hface hd _ hstate =>
    obtain ⟨hm, hsolve⟩ := demand_solve hd
    obtain ⟨hlhs, hrhs⟩ := hface.all hkeeps hg.subst (hg.queue _ mem_cons_self)
    have ht : P m t := hP.mono hm (hsolve.value hlhs hrhs)
    have hn := hface.next.trans hm
    have hsolved := solved_of_solve hstate
    have hsingle : (Subst.single v t).All P m := .single ht
    refine ⟨hqueue, fun x u hx => ?_, fun entry hentry => ?_⟩
    · rcases hsolved.values x with ⟨-, hx'⟩ | ⟨-, -, hx'⟩ | ⟨-, a, b, ha, hx', hab⟩
      · cases hx'.symm.trans hx
        exact hP.mono hsolved.next ht
      · cases hx'.symm.trans hx
      · cases hx'.symm.trans hx
        exact hsingle.applied hP hab (hP.mono hn (hg.subst ha))
    · obtain ⟨old, hold, hkey, happ⟩ := hsolved.types entry hentry
      obtain ⟨hvar, htype⟩ := hP.telescope_mono hg.context hn old hold
      rw [hkey]
      exact ⟨hvar.trans_le hsolved.next, hsingle.applied hP happ htype⟩

/-- The context holds unsolved variables of `Γ`, each once if `Γ` has them once. -/
structure Stage.Within (Γ : Telescope) (g : Stage) : Prop where
  sub : ∀ x ∈ g.state.context.vars, x ∈ Γ.vars
  nodup : Γ.vars.Nodup → g.state.context.vars.Nodup
  unsolved : ∀ x ∈ g.state.context.vars, g.state.subst.get? x = none

lemma Move.within (hg : g.Within Γ) (h : Move env g g') : g'.Within Γ := by
  cases h with
  | drop | parts => exact ⟨hg.sub, hg.nodup, hg.unsolved⟩
  | solve _ _ _ _ hstate =>
    have hsolved := solved_of_solve hstate
    refine ⟨fun x hx => hg.sub x (hsolved.mem_vars.1 hx).1,
      fun hΓ => hsolved.vars.nodup_iff.2 ((hg.nodup hΓ).filter _), fun x hx => ?_⟩
    obtain ⟨hmem, hne⟩ := hsolved.mem_vars.1 hx
    exact hsolved.get?_eq_none.2 ⟨hg.unsolved x hmem, hne⟩

/-- What every move keeps holds at the end of a run. -/
lemma moves_all (hkeeps : env.Keeps P g.next) (hg : g.All P)
    (h : Relation.ReflTransGen (Move env) g g') : g.next ≤ g'.next ∧ g'.All P := by
  induction h with
  | refl => exact ⟨le_rfl, hg⟩
  | tail _ hmove ih =>
    obtain ⟨hnext, hall⟩ := ih
    exact ⟨hnext.trans hmove.next, hmove.all (hkeeps.mono hnext) hall⟩

lemma moves_within (hg : g.Within Γ) (h : Relation.ReflTransGen (Move env) g g') :
    g'.Within Γ := by
  induction h with
  | refl => exact hg
  | tail _ hmove ih => exact hmove.within ih

/-- Solving one more variable fills the values, and everything filled with them. -/
lemma Solved.filling {S : Reach} (h : Solved Γ σ v t n state m) (hσ : σ.All S.Bounds n)
    (ht : S.Bounds n t) (hv : σ.get? v = none) :
    state.subst.filling = σ.filling.andThen (Subst.single v t).filling := by
  have hsingle : (Subst.single v t).All S.Bounds n := .single ht
  ext x
  · change (state.subst.image x).nameless [] =
      ((σ.image x).nameless []).fill (Subst.single v t).filling
    rcases h.values x with ⟨rfl, hx⟩ | ⟨hne, hnone, hx⟩ | ⟨hne, a, b, ha, hx, hab⟩
    · rw [Subst.image, image_eq hx, Subst.image, image_eq_var hv]
      simp [Term.nameless, Var.locate, fill, Subst.filling, Subst.image_single]
    · rw [Subst.image, image_eq_var hx, Subst.image, image_eq_var hnone]
      simp [Term.nameless, Var.locate, fill, Subst.filling, Subst.image_single, hne]
    · rw [Subst.image, image_eq hx, Subst.image, image_eq ha]
      exact hsingle.nameless S.hereditary hab (hσ ha)
  · rfl

end Unify

/-- A unifier solves variables of the context, and keeps the others as they are. -/
lemma Env.unify_success (hkeeps : env.Keeps P n) (hΓ : Γ.All P n)
    (heqs : ∀ e ∈ equations, P n e.1 ∧ P n e.2)
    (h : Returns (unify env Γ equations) n (.ok (.success u)) m) :
    u.context.All P m ∧ u.subst.All P m ∧ (Γ.vars.Nodup → u.context.vars.Nodup) ∧
      ∀ x ∈ u.context.vars, x ∈ Γ.vars ∧ u.subst.get? x = none := by
  obtain ⟨g, hmoves, hend⟩ := Unify.run_moves (g := ⟨⟨Γ, .empty⟩, equations, n⟩) h
  have hall := (Unify.moves_all hkeeps ⟨heqs, All.empty, hΓ⟩ hmoves).2
  have hwithin := Unify.moves_within (Γ := Γ) ⟨fun _ hx => hx, id, fun _ _ => rfl⟩ hmoves
  cases hend with
  | success =>
    exact ⟨hall.context, hall.subst, hwithin.nodup,
      fun x hx => ⟨hwithin.sub x hx, hwithin.unsolved x hx⟩⟩
  | front _ _ _ hcloses => cases hcloses

end Clausal
