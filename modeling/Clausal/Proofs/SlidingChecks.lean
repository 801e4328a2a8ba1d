import Clausal.Proofs.Nameless.Occurrence
import Clausal.Proofs.SlidingReduction
import Clausal.Typing.Checker

/-!
# Type checking from a later supply

Of computations that may fail, that they do the same from a later supply is said
where they succeed.
-/

namespace Clausal

open Check List Subst
open Eval (Forward)

variable (Γ : Telescope)

/-- From a later supply the one computation, if both return, succeeds where the other does. -/
def Check.Slides {ε α β : Type} (s : Slide) (φ : α → β) (x : ExceptT ε Eval α)
    (y : ExceptT ε Eval β) : Prop :=
  ∀ ⦃k m l : Nat⦄ ⦃r : Except ε α⦄ ⦃r' : Except ε β⦄, s.start ≤ k → Eval.Returns x.run k r m →
    Eval.Returns y.run (k + s.gap) r' l →
    k ≤ m ∧ ∀ a, r = .ok a → r' = .ok (φ a) ∧ l = m + s.gap

section

variable {ε α β γ δ : Type} {s : Slide}

lemma Eval.returns_run_lift :
    Returns (liftM x : ExceptT ε Eval α).run n r m ↔ ∃ a, Returns x n a m ∧ r = .ok a := by
  change Returns (x >>= fun a => pure (Except.ok a) : Eval (Except ε α)) n r m ↔ _
  simp only [returns_bind, returns_pure]
  constructor
  · rintro ⟨a, k, ha, hr, rfl⟩
    exact ⟨a, ha, hr.symm⟩
  · rintro ⟨a, ha, hr⟩
    exact ⟨a, m, ha, hr.symm, rfl⟩

namespace Check.Slides

protected lemma pure (a : α) (h : φ a = b) :
    Slides s φ (pure a : ExceptT ε Eval α) (pure b) := by
  intro k m l r r' _ hrun hlater
  obtain ⟨rfl, rfl⟩ := (Eval.returns_pure (a := Except.ok a)).1 hrun
  obtain ⟨rfl, rfl⟩ := (Eval.returns_pure (a := Except.ok b)).1 hlater
  refine ⟨le_refl k, fun c hc => ⟨?_, rfl⟩⟩
  rw [← Except.ok.inj hc, h]

protected lemma throw (e : ε) (y : ExceptT ε Eval β) : Slides s φ (throw e) y := by
  intro k m l r r' _ hrun _
  obtain ⟨rfl, rfl⟩ := (Eval.returns_pure (a := Except.error e)).1 hrun
  exact ⟨le_refl k, nofun⟩

protected lemma outOfFuel (y : Check β) : Slides s φ outOfFuel y :=
  fun _ _ _ _ _ _ hrun => (Eval.returns_outOfFuel hrun).elim

protected lemma before_outOfFuel (x : Check α) : Slides s φ x outOfFuel :=
  fun _ _ _ _ _ _ _ hlater => (Eval.returns_outOfFuel hlater).elim

protected lemma bind (hx : Slides s φ x y) (hf : ∀ a, Slides s ψ (f a) (g (φ a))) :
    Slides s ψ (x >>= f) (y >>= g) := by
  intro k m l r r' hk hrun hlater
  rcases Eval.run_bind_cases.1 hrun with ⟨e, he, rfl⟩ | ⟨a, i, ha, hc⟩
  · rcases Eval.run_bind_cases.1 hlater with ⟨_, hy, -⟩ | ⟨_, _, hy, -⟩
    · exact ⟨(hx hk he hy).1, nofun⟩
    · exact ⟨(hx hk he hy).1, nofun⟩
  · rcases Eval.run_bind_cases.1 hlater with ⟨e, he, -⟩ | ⟨b, j, hb, hr⟩
    · cases ((hx hk ha he).2 a rfl).1
    · obtain ⟨hi, hok⟩ := hx hk ha hb
      obtain ⟨heq, rfl⟩ := hok a rfl
      cases heq
      obtain ⟨hm, hdone⟩ := hf a (hk.trans hi) hc hr
      exact ⟨hi.trans hm, hdone⟩

protected lemma lift (h : Eval.Slides s φ x y) :
    Slides s φ (liftM x : ExceptT ε Eval α) (liftM y) := by
  intro k m l r r' hk hrun hlater
  obtain ⟨a, ha, rfl⟩ := Eval.returns_run_lift.1 hrun
  obtain ⟨b, hb, rfl⟩ := Eval.returns_run_lift.1 hlater
  have hslide := h.run k hk
  rw [show x k = some (a, m) from ha, Option.map_some] at hslide
  cases hb.symm.trans hslide
  exact ⟨h.forward hk ha, fun c hc => ⟨congrArg (Except.ok ∘ φ) (Except.ok.inj hc), rfl⟩⟩

protected lemma liftFresh (h : Fresh.Slides s φ x y) :
    Slides s φ (liftM x : ExceptT ε Eval α) (liftM y) := .lift (.lift h)

lemma toForward {φ : α → α} (h : Slides .still φ x y) (hy : y = x) : Eval.Forward x.run :=
  fun k _ _ hrun => (h (Nat.zero_le k) hrun (hy ▸ hrun)).1

lemma mapM (h : ∀ a, Slides s ψ (f a) (g (φ a))) (as : List α) :
    Slides s (map ψ) (as.mapM f) ((as.map φ).mapM g) := by
  induction as with
  | nil => exact .pure _ rfl
  | cons a as ih =>
    rw [mapM_cons, map_cons, mapM_cons]
    exact (h a).bind fun c => ih.bind fun cs => .pure _ rfl

end Check.Slides

/-! ### Telescopes -/

lemma Slide.contains_map (vs : List Var) (v : Var) :
    (vs.map s.var).contains (s.var v) = vs.contains v := by
  rw [Bool.eq_iff_iff, contains_iff_mem, contains_iff_mem,
    mem_map_of_injective fun _ _ => s.var_inj.1]

mutual

lemma Term.occurs_slide (v : Var) : (t : Term) → (t.mapVars s.var).occurs (s.var v) = t.occurs v
  | .univ | .global _ => rfl
  | .var w => s.var_beq w v
  | .pi w a b | .lam w a b => by
    simp only [Term.mapVars, Term.occurs, bne, s.var_beq, a.occurs_slide v, b.occurs_slide v]
  | .app a b | .ann a b => by
    simp only [Term.mapVars, Term.occurs, a.occurs_slide v, b.occurs_slide v]
  | .case scrut branches => by
    simp only [Term.mapVars, Term.occurs, scrut.occurs_slide v, branches.occurs_slide v]
  | .absurd scrut => by simp only [Term.mapVars, Term.occurs, scrut.occurs_slide v]

lemma Branches.occurs_slide (v : Var) : (bs : Branches) →
    (bs.mapVars s.var).occurs (s.var v) = bs.occurs v
  | .nil => rfl
  | .cons _ fields body rest => by
    simp only [Branches.mapVars, Branches.occurs, Slide.contains_map, body.occurs_slide v,
      rest.occurs_slide v]

end

lemma Term.var?_slide (t : Term) : (t.mapVars s.var).var? = t.var?.map s.var := by
  cases t <;> rfl

namespace Telescope

/-- Rename every variable of a telescope. -/
def mapVars (f : Var → Var) (Γ : Telescope) : Telescope := Γ.map (Prod.map f (Term.mapVars f))

@[simp] lemma mapVars_id : Γ.mapVars id = Γ := by
  induction Γ with
  | nil => rfl
  | cons e Γ ih => exact congrArg₂ cons (Prod.ext rfl e.2.mapVars_id) ih

lemma vars_mapVars (f : Var → Var) (Γ : Telescope) : (Γ.mapVars f).vars = Γ.vars.map f := by
  simp only [vars, mapVars, map_map]
  rfl

lemma args_mapVars (f : Var → Var) (Γ : Telescope) :
    (Γ.mapVars f).args = Γ.args.map (Term.mapVars f) := by
  simp only [args, mapVars, map_map]
  rfl

lemma mapVars_concat (f : Var → Var) (Γ : Telescope) (v : Var) (type : Term) :
    mapVars f (Γ ++ [(v, type)]) = Γ.mapVars f ++ [(f v, type.mapVars f)] := map_append

lemma isEntry_slide (v : Var) :
    (fun entry : Var × Term => entry.1 == s.var v) ∘ Prod.map s.var (Term.mapVars s.var) =
      fun entry => entry.1 == v :=
  funext fun entry => s.var_beq entry.1 v

lemma type?_slide (v : Var) :
    (Γ.mapVars s.var).type? (s.var v) = (Γ.type? v).map (Term.mapVars s.var) := by
  rw [type?, mapVars, ← map_reverse, find?_map, isEntry_slide, Option.map_map, type?,
    Option.map_map]
  rfl

lemma position?_slide (v : Var) : (Γ.mapVars s.var).position? (s.var v) = Γ.position? v := by
  rw [position?, mapVars, findIdx?_map, isEntry_slide, position?]

lemma contains_mapVars (v : Var) : (Γ.mapVars s.var).contains (s.var v) = Γ.contains v := by
  rw [contains, mapVars, any_map, isEntry_slide, contains]

lemma filter_var?_slide (t : Term) :
    (t.mapVars s.var).var?.filter (fun v => (Γ.mapVars s.var).contains v) =
      (t.var?.filter fun v => Γ.contains v).map s.var := by
  rw [t.var?_slide]
  cases t.var? with
  | none => rfl
  | some v =>
    simp only [Option.map_some, Option.filter_some, contains_mapVars]
    split <;> rfl

lemma isReady_iff :
    isReady pending entry = true ↔ ∀ v ∈ pending, entry.2.occurs v = true → v = entry.1 := by
  simp only [isReady, all_eq_true, Term.mem_freeVars, Bool.or_eq_true, beq_iff_eq,
    Bool.not_eq_true', contains_eq_mem, decide_eq_false_iff_not]
  exact ⟨fun h v hv hoccurs => (h v hoccurs).resolve_right fun hnot => hnot hv,
    fun h v hoccurs => or_iff_not_imp_right.2 fun hv => h v (not_not.1 hv) hoccurs⟩

lemma isReady_slide (pending : List Var) (entry : Var × Term) :
    isReady (pending.map s.var) (Prod.map s.var (Term.mapVars s.var) entry) =
      isReady pending entry := by
  rw [Bool.eq_iff_iff, isReady_iff, isReady_iff, forall_mem_map]
  simp only [Prod.map_fst, Prod.map_snd, Term.occurs_slide, s.var_inj]

lemma takeReady?_slide (pending : List Var) (Γ : Telescope) :
    takeReady? (pending.map s.var) (Γ.mapVars s.var) =
      (takeReady? pending Γ).map
        (Prod.map (Prod.map s.var (Term.mapVars s.var)) (mapVars s.var)) := by
  induction Γ with
  | nil => rfl
  | cons entry Γ ih =>
    simp only [mapVars, map_cons, takeReady?, isReady_slide] at ih ⊢
    split
    · rfl
    · rw [ih, Option.map_map, Option.map_map]
      rfl

lemma sortUpTo?_slide (n : Nat) (Γ : Telescope) :
    sortUpTo? n (Γ.mapVars s.var) = (sortUpTo? n Γ).map (mapVars s.var) := by
  induction n generalizing Γ with
  | zero => cases Γ <;> rfl
  | succ n ih =>
    cases Γ with
    | nil => rfl
    | cons entry Γ =>
      have htake := takeReady?_slide (s := s) (vars (entry :: Γ)) (entry :: Γ)
      rw [← vars_mapVars] at htake
      rw [sortUpTo?, htake, sortUpTo?]
      · cases takeReady? (vars (entry :: Γ)) (entry :: Γ) with
        | none => rfl
        | some p =>
          simp only [Option.map_some, Prod.map, ih, Option.map_map]
          rfl
      · simp
      · simp [mapVars]

lemma sort?_slide : (Γ.mapVars s.var).sort? = Γ.sort?.map (mapVars s.var) := by
  rw [sort?, show (Γ.mapVars s.var).length = Γ.length from length_map _, sortUpTo?_slide, sort?]

end Telescope

namespace Subst

lemma filter_slide (σ : Subst) (entries : List (Var × Term)) :
    (Assignment.mapVars s.var entries).filter (fun e => !(σ.mapVars s.var).contains e.1) =
      Assignment.mapVars s.var (entries.filter fun e => !σ.contains e.1) := by
  rw [Assignment.mapVars, filter_map, Assignment.mapVars]
  congr 2
  funext entry
  simp only [Function.comp_apply, Prod.map_fst, contains_slide]

lemma applyTelescope_slides (σ : Subst) (Γ : Telescope) :
    Fresh.Slides s (Telescope.mapVars s.var) (σ.applyTelescope Γ)
      ((σ.mapVars s.var).applyTelescope (Γ.mapVars s.var)) := by
  have hfilter := filter_slide (s := s) σ Γ
  rw [applyTelescope, applyTelescope]
  exact hfilter ▸ applyEntries_slides s σ _

lemma compose_slides (σ τ : Subst) :
    Fresh.Slides s (mapVars s.var) (σ.compose τ) ((σ.mapVars s.var).compose (τ.mapVars s.var)) := by
  refine (applyEntries_slides s τ σ.entries).bind fun entries => .pure _ ?_
  rw [show (τ.mapVars s.var).entries = Assignment.mapVars s.var τ.entries from rfl, filter_slide]
  simp [mapVars, Assignment.mapVars]

end Subst

/-! ### Unification -/

/-- Rename every variable of a unifier. -/
def Unifier.mapVars (f : Var → Var) (u : Unifier) : Unifier :=
  ⟨u.context.mapVars f, u.subst.mapVars f⟩

def Unified.mapVars (f : Var → Var) : Unified → Unified
  | .success u => .success (u.mapVars f)
  | .conflict => .conflict

def UnifyError.mapVars (f : Var → Var) : UnifyError → UnifyError
  | .stuck lhs rhs => .stuck (lhs.mapVars f) (rhs.mapVars f)
  | .occurs v t => .occurs (f v) (t.mapVars f)
  | .illScoped => .illScoped

/-- Rename every variable of what unification answers. -/
def Unify.answer (f : Var → Var) : Except UnifyError Unified → Except UnifyError Unified
  | .ok r => .ok (r.mapVars f)
  | .error e => .error (e.mapVars f)

def Constraint.mapVars (f : Var → Var) : Constraint → Constraint :=
  Prod.map (Term.mapVars f) (Term.mapVars f)

def Demand.mapVars (f : Var → Var) : Demand → Demand
  | .nothing => .nothing
  | .solve v t => .solve (f v) (t.mapVars f)
  | .parts equations => .parts (equations.map (Constraint.mapVars f))
  | .impossible => .impossible
  | .unclear => .unclear

namespace Unify

lemma flexible?_slide (t : Term) :
    flexible? (Γ.mapVars s.var) (t.mapVars s.var) = (flexible? Γ t).map s.var :=
  Γ.filter_var?_slide t

lemma solveLater_slide (v w : Var) :
    solveLater (Γ.mapVars s.var) (s.var v) (s.var w) = (solveLater Γ v w).mapVars s.var := by
  rw [solveLater, Telescope.position?_slide, Telescope.position?_slide, solveLater]
  split
  · split <;> rfl
  · rfl

lemma compareRigid_slides (hbodies : env.BodiesFixed s) (lhs rhs : Term) :
    Eval.Slides s (Demand.mapVars s.var) (compareRigid env lhs rhs)
      (compareRigid env (lhs.mapVars s.var) (rhs.mapVars s.var)) := by
  refine (Env.convertible_slides hbodies lhs rhs).bind fun same => ?_
  cases same with
  | true => exact .pure _ rfl
  | false =>
    simp only [id_eq, Bool.false_eq_true, if_false, Env.ctorSpine?_slide, Term.spine_slide,
      s.term_inj]
    cases env.ctorSpine? lhs with
    | none => exact .pure _ rfl
    | some p =>
      cases env.ctorSpine? rhs with
      | none => exact .pure _ rfl
      | some q =>
        simp only [Option.map_some, length_map]
        split
        · refine .pure _ ?_
          rw [Demand.mapVars, Constraint.mapVars, ← zip_map]
        · exact .pure _ rfl

lemma demand_slides (hbodies : env.BodiesFixed s) (Γ : Telescope) (lhs rhs : Term) :
    Eval.Slides s (Demand.mapVars s.var) (demand env Γ lhs rhs)
      (demand env (Γ.mapVars s.var) (lhs.mapVars s.var) (rhs.mapVars s.var)) := by
  rw [demand, demand, flexible?_slide, flexible?_slide]
  cases flexible? Γ lhs with
  | none =>
    cases flexible? Γ rhs with
    | none => exact compareRigid_slides hbodies lhs rhs
    | some w => exact .pure _ rfl
  | some v =>
    cases flexible? Γ rhs with
    | none => exact .pure _ rfl
    | some w =>
      simp only [Option.map_some, s.var_inj]
      refine .pure _ ?_
      split
      · rfl
      · exact (solveLater_slide Γ v w).symm

lemma solve_slides (σ : Subst) (v : Var) (t : Term) :
    Fresh.Slides s (Option.map (Unifier.mapVars s.var)) (solve Γ σ v t)
      (solve (Γ.mapVars s.var) (σ.mapVars s.var) (s.var v) (t.mapVars s.var)) := by
  refine (applyTelescope_slides (.single v t) Γ).bind fun Δ => ?_
  rw [Telescope.sort?_slide]
  cases Δ.sort? with
  | none => exact .pure _ rfl
  | some Δ => exact (insert_slides s σ v t).bind fun _ => .pure _ rfl

lemma run_slides (hbodies : env.BodiesFixed s) (fuel : Nat) (state : Unifier)
    (queue : List Constraint) :
    Eval.Slides s (answer s.var) (run env fuel state queue)
      (run env fuel (state.mapVars s.var) (queue.map (Constraint.mapVars s.var))) := by
  induction fuel generalizing state queue with
  | zero => exact .outOfFuel
  | succ fuel ih =>
    cases queue with
    | nil => exact .pure _ rfl
    | cons e queue =>
      obtain ⟨lhs, rhs⟩ := e
      have happly (t : Term) := Eval.Slides.lift (apply_slides s state.subst t)
      have hwhnf (t : Term) := Env.whnf_slides hbodies t
      refine (happly lhs).bind fun lhs => (hwhnf lhs).bind fun lhs =>
        (happly rhs).bind fun rhs => (hwhnf rhs).bind fun rhs =>
        (demand_slides hbodies state.context lhs rhs).bind fun d => ?_
      cases d with
      | nothing => exact ih state queue
      | impossible | unclear => exact .pure _ rfl
      | parts equations =>
        have hrest := ih state (equations ++ queue)
        rwa [map_append] at hrest
      | solve v t =>
        simp only [Demand.mapVars, Term.occurs_slide, Env.ctorSpine?_slide, Option.isSome_map]
        split
        · split <;> exact .pure _ rfl
        · refine (Eval.Slides.lift (solve_slides state.context state.subst v t)).bind fun o => ?_
          cases o with
          | none => exact .pure _ rfl
          | some state => exact ih state queue

end Unify

lemma Env.unify_slides (hbodies : env.BodiesFixed s) (Γ : Telescope) (equations : List Constraint) :
    Eval.Slides s (Unify.answer s.var) (unify env Γ equations)
      (unify env (Γ.mapVars s.var) (equations.map (Constraint.mapVars s.var))) :=
  Unify.run_slides hbodies env.fuel ⟨Γ, .empty⟩ equations

/-! ### Refinement of contexts -/

/-- No variable of a declaration is moved. -/
structure Env.Fixed (env : Env) (s : Slide) : Prop where
  bodies : env.BodiesFixed s
  types : ∀ {name : Name} {type : Term}, env.sig.type? name = some type →
    type.mapVars s.var = type
  ctors : ∀ {c : Name} {ctor : Ctor}, env.ctor? c = some ctor →
    ctor.type.mapVars s.var = ctor.type

lemma Env.fixed_still (env : Env) : env.Fixed .still where
  bodies := env.bodiesFixed_still
  types _ := Term.mapVars_id _
  ctors _ := Term.mapVars_id _

/-- Rename every variable of a refinement. -/
def Refinement.mapVars (f : Var → Var) (r : Refinement) : Refinement :=
  ⟨r.ctor, r.fields.map f, r.context.mapVars f, r.subst.mapVars f⟩

def Candidate.mapVars (f : Var → Var) : Candidate → Candidate
  | .possible r => .possible (r.mapVars f)
  | .impossible c => .impossible c

namespace Env

variable {env : Env}

lemma splitType_slides (hbodies : env.BodiesFixed s) (Γ : Telescope) (v : Var) :
    Slides s (Prod.map id (map (Term.mapVars s.var))) (env.splitType Γ v)
      (env.splitType (Γ.mapVars s.var) (s.var v)) := by
  rw [splitType, splitType, Telescope.type?_slide]
  cases Γ.type? v with
  | none => exact .throw _ _
  | some type =>
    refine (Slides.lift (whnf_slides hbodies type)).bind fun type => ?_
    rw [Term.globalSpine?_slide]
    cases type.globalSpine? with
    | none => exact .throw _ _
    | some p =>
      dsimp only [Option.map_some]
      cases env.sig.family? p.1 with
      | none => exact .throw _ _
      | some family => exact .pure _ rfl

lemma fieldVar_slides (given : Option (List Var)) (index : Nat) (binder : Var) :
    Fresh.Slides s s.var (fieldVar given index binder)
      (fieldVar (given.map (map s.var)) index (s.var binder)) := by
  cases given with
  | some vs => exact .pure _ (by simp [getD_eq_getElem?_getD, Option.getD_map])
  | none =>
    simp only [fieldVar, Option.map_none, s.var_name]
    split
    · exact .fresh _
    · exact .refresh binder

lemma bindFields_slides (hbodies : env.BodiesFixed s) (c : Name)
    (given : Option (List Var)) (index count : Nat) (type : Term) :
    Slides s (Prod.map (Telescope.mapVars s.var) (Term.mapVars s.var))
      (env.bindFields c given index count type)
      (env.bindFields c (given.map (map s.var)) index count (type.mapVars s.var)) := by
  induction count generalizing index type with
  | zero => exact .pure _ rfl
  | succ count ih =>
    refine (Slides.lift (whnf_slides hbodies type)).bind fun type => ?_
    cases type with
    | pi binder dom cod =>
      refine (Slides.liftFresh (fieldVar_slides given index binder)).bind fun field => ?_
      refine (Slides.liftFresh (apply_slides s (.single binder (.var field)) cod)).bind
        fun cod => ?_
      exact (ih (index + 1) cod).bind fun p => .pure _ rfl
    | _ => exact .throw _ _

lemma instantiate_slides (hbodies : env.BodiesFixed s) (type : Term) (args : List Term) :
    Eval.Slides s (Option.map (Term.mapVars s.var)) (env.instantiate type args)
      (env.instantiate (type.mapVars s.var) (args.map (Term.mapVars s.var))) := by
  induction args generalizing type with
  | nil => exact .pure _ rfl
  | cons a args ih =>
    refine (whnf_slides hbodies type).bind fun type => ?_
    cases type with
    | pi v dom cod =>
      exact (Eval.Slides.lift (apply_slides s (.single v a) cod)).bind fun cod => ih cod
    | _ => exact .pure _ rfl

lemma replaceVar_slides (position : Nat) (fields : Telescope) (split : Subst) :
    Fresh.Slides s (Telescope.mapVars s.var) (replaceVar Γ position fields split)
      (replaceVar (Γ.mapVars s.var) position (fields.mapVars s.var) (split.mapVars s.var)) := by
  rw [replaceVar, replaceVar, Telescope.mapVars, ← map_drop]
  refine (applyEntries_slides s split (Γ.drop (position + 1))).bind fun later => .pure _ ?_
  simp only [Telescope.mapVars, Assignment.mapVars, map_append, map_take]

lemma checkFieldCount_slides (c : Name) (ctor : Ctor) (given : Option (List Var)) :
    Slides s id (checkFieldCount c ctor given)
      (checkFieldCount c ctor (given.map (map s.var))) := by
  cases given with
  | none => exact .pure _ rfl
  | some vs =>
    simp only [checkFieldCount, Option.map_some, length_map]
    split
    · exact .pure _ rfl
    · exact .throw _ _

lemma indices_slide (ctor : Ctor) (type : Term) :
    indices ctor (type.mapVars s.var) = (indices ctor type).map (Term.mapVars s.var) := by
  rw [indices, indices, Term.globalSpine?_slide]
  cases type.globalSpine? with
  | none => rfl
  | some p => simp

lemma refineAt_slides (hbodies : env.BodiesFixed s) {ctor : Ctor}
    (hctor : ctor.type.mapVars s.var = ctor.type) (Γ : Telescope) (v : Var) (args : List Term)
    (c : Name) (given : Option (List Var)) :
    Slides s (Candidate.mapVars s.var) (env.refineAt Γ v args c ctor given)
      (env.refineAt (Γ.mapVars s.var) (s.var v) (args.map (Term.mapVars s.var)) c ctor
        (given.map (map s.var))) := by
  have hinst := instantiate_slides hbodies ctor.type (args.take ctor.numParams)
  rw [hctor, map_take] at hinst
  refine (Slides.lift hinst).bind fun o => ?_
  cases o with
  | none => exact .throw _ _
  | some type =>
    refine (bindFields_slides hbodies c given 0 ctor.numFields type).bind fun p => ?_
    obtain ⟨fields, target⟩ := p
    refine (Slides.lift (whnf_slides hbodies target)).bind fun target => ?_
    have hsplit : mapVars s.var (.single v
          ((Term.global c).apps (args.take ctor.numParams ++ fields.args))) =
        .single (s.var v) ((Term.global c).apps
          ((args.map (Term.mapVars s.var)).take ctor.numParams ++
            (fields.mapVars s.var).args)) := by
      change single (s.var v) (Term.mapVars s.var _) = _
      rw [Term.apps_slide, map_append, map_take, Telescope.args_mapVars]
      rfl
    rw [Telescope.position?_slide, ← hsplit]
    cases Γ.position? v with
    | none => exact .throw _ _
    | some position =>
      refine (Slides.liftFresh (replaceVar_slides Γ position fields _)).bind fun refined => ?_
      have hunify := unify_slides hbodies refined
        ((indices ctor target).zip (args.drop ctor.numParams))
      rw [Constraint.mapVars, ← zip_map, ← indices_slide, map_drop] at hunify
      refine (Slides.lift hunify).bind fun r => ?_
      cases r with
      | error e => exact .throw _ _
      | ok r =>
        cases r with
        | conflict => exact .pure _ rfl
        | success u =>
          refine (Slides.liftFresh (compose_slides _ u.subst)).bind
            fun subst => .pure _ ?_
          rw [Telescope.vars_mapVars]
          rfl

lemma refine_slides (hfixed : env.Fixed s) (Γ : Telescope) (v : Var) (c : Name)
    (given : Option (List Var)) :
    Slides s (Candidate.mapVars s.var) (env.refine Γ v c given)
      (env.refine (Γ.mapVars s.var) (s.var v) c (given.map (map s.var))) := by
  refine (splitType_slides hfixed.bodies Γ v).bind fun p => ?_
  dsimp only [Prod.map]
  cases hctor : env.ctor? c with
  | none => exact .throw _ _
  | some ctor =>
    dsimp only [id_eq]
    split
    · exact (checkFieldCount_slides c ctor given).bind fun _ =>
        refineAt_slides hfixed.bodies (hfixed.ctors hctor) Γ v p.2 c given
    · exact .throw _ _

lemma constructors_slides (hfixed : env.Fixed s) (Γ : Telescope) (v : Var) :
    Slides s (map (Candidate.mapVars s.var)) (env.constructors Γ v)
      (env.constructors (Γ.mapVars s.var) (s.var v)) := by
  refine (splitType_slides hfixed.bodies Γ v).bind fun p => ?_
  have hall := Slides.mapM (φ := id) (f := fun c => env.refine Γ v c none)
    (g := fun c => env.refine (Γ.mapVars s.var) (s.var v) c none)
    (fun c => refine_slides hfixed Γ v c none) p.1.ctors
  rwa [map_id] at hall

/-! ### Checking -/

lemma contextVar?_slide (t : Term) :
    contextVar? (Γ.mapVars s.var) (t.mapVars s.var) = (contextVar? Γ t).map s.var :=
  Γ.filter_var?_slide t

lemma unexpectedBranch?_slide (ctors seen : List Name) (bs : Branches) :
    unexpectedBranch? ctors seen (bs.mapVars s.var).toList =
      unexpectedBranch? ctors seen bs.toList := by
  cases bs with
  | nil => rfl
  | cons c fields body rest =>
    simp only [Branches.mapVars, Branches.toList, unexpectedBranch?]
    rw [unexpectedBranch?_slide ctors (c :: seen) rest]

lemma checkAbsurd_slides (hfixed : env.Fixed s) (Γ : Telescope) (scrut : Term) :
    Slides s id (env.checkAbsurd Γ scrut)
      (env.checkAbsurd (Γ.mapVars s.var) (scrut.mapVars s.var)) := by
  rw [checkAbsurd, checkAbsurd, contextVar?_slide]
  cases contextVar? Γ scrut with
  | none => exact .throw _ _
  | some v =>
    refine (constructors_slides hfixed Γ v).bind fun candidates => ?_
    have hmap : (candidates.map (Candidate.mapVars s.var)).filterMap (·.refinement?) =
        (candidates.filterMap (·.refinement?)).map (Refinement.mapVars s.var) := by
      rw [filterMap_map, map_filterMap]
      congr 1
      funext candidate
      cases candidate <;> rfl
    rw [hmap]
    cases candidates.filterMap (·.refinement?) with
    | nil => exact .pure _ rfl
    | cons r rs => exact .throw _ _

lemma applyCheck_slides (σ : Subst) (t : Term) :
    Slides s (Term.mapVars s.var) (liftM (σ.apply t) : Check Term)
      (liftM ((σ.mapVars s.var).apply (t.mapVars s.var))) :=
  .liftFresh (apply_slides s σ t)

section

variable (hfixed : env.Fixed s)

include hfixed

mutual

lemma synthWith_slides : (fuel fuel' : Nat) → (Γ : Telescope) → (t : Term) →
    Slides s (Term.mapVars s.var) (env.synthWith fuel Γ t)
      (env.synthWith fuel' (Γ.mapVars s.var) (t.mapVars s.var))
  | 0, _, _, _ => .outOfFuel _
  | _ + 1, 0, _, _ => .before_outOfFuel _
  | fuel + 1, fuel' + 1, Γ, t => by
    have hcheck := checkWith_slides fuel fuel'
    cases t with
    | univ => exact .pure _ rfl
    | var v =>
      rw [Term.mapVars, synthWith, synthWith, Telescope.type?_slide]
      cases Γ.type? v with
      | none => exact .throw _ _
      | some type => exact .pure _ rfl
    | global name =>
      rw [Term.mapVars, synthWith, synthWith]
      cases htype : env.sig.type? name with
      | none => exact .throw _ _
      | some type => exact .pure _ (hfixed.types htype)
    | pi v dom cod =>
      have hcod := hcheck (Γ ++ [(v, dom)]) cod .univ
      rw [Telescope.mapVars_concat] at hcod
      exact (hcheck Γ dom .univ).bind fun _ => hcod.bind fun _ => .pure _ rfl
    | lam v dom body =>
      have hbody := synthWith_slides fuel fuel' (Γ ++ [(v, dom)]) body
      rw [Telescope.mapVars_concat] at hbody
      exact (hcheck Γ dom .univ).bind fun _ => hbody.bind fun _ => .pure _ rfl
    | app head arg =>
      refine (synthWith_slides fuel fuel' Γ head).bind fun headType => ?_
      refine (Slides.lift (whnf_slides hfixed.bodies headType)).bind fun type => ?_
      cases type with
      | pi v dom cod =>
        exact (hcheck Γ arg dom).bind fun _ => applyCheck_slides (.single v arg) cod
      | _ => exact .throw _ _
    | ann t type =>
      exact (hcheck Γ type .univ).bind fun _ => (hcheck Γ t type).bind fun _ => .pure _ rfl
    | case | absurd => exact .throw _ _

/-- Checking commutes with a slide; the four functions by one induction. -/
lemma checkWith_slides : (fuel fuel' : Nat) → (Γ : Telescope) →
    (t expected : Term) → Slides s id (env.checkWith fuel Γ t expected)
      (env.checkWith fuel' (Γ.mapVars s.var) (t.mapVars s.var) (expected.mapVars s.var))
  | 0, _, _, _, _ => .outOfFuel _
  | _ + 1, 0, _, _, _ => .before_outOfFuel _
  | fuel + 1, fuel' + 1, Γ, t, expected => by
    have hwhnf (u : Term) := Slides.lift (ε := TypeError) (whnf_slides hfixed.bodies u)
    cases t with
    | lam v dom body =>
      refine (hwhnf expected).bind fun type => ?_
      cases type with
      | pi w dom' cod' =>
        refine (checkWith_slides fuel fuel' Γ dom .univ).bind fun _ => ?_
        refine (Slides.lift (convertible_slides hfixed.bodies dom dom')).bind fun same => ?_
        cases same with
        | false => exact .throw _ _
        | true =>
          refine (applyCheck_slides (.single w (.var v)) cod').bind fun cod' => ?_
          have hbody := checkWith_slides fuel fuel' (Γ ++ [(v, dom)]) body cod'
          rwa [Telescope.mapVars_concat] at hbody
      | _ => exact checkSynth_slides fuel fuel' Γ (.lam v dom body) expected
    | case scrut branches =>
      rw [Term.mapVars, checkWith, checkWith, contextVar?_slide]
      cases contextVar? Γ scrut with
      | some v =>
        refine (splitType_slides hfixed.bodies Γ v).bind fun p => ?_
        dsimp only [Prod.map, id_eq]
        rw [unexpectedBranch?_slide]
        split
        · exact .throw _ _
        · exact checkBranches_slides fuel fuel' Γ v branches expected p.1.ctors
      | none =>
        refine (hwhnf (.case scrut branches)).bind fun u => ?_
        cases u with
        | case => exact .throw _ _
        | _ => exact checkWith_slides fuel fuel' Γ _ expected
    | absurd scrut => exact checkAbsurd_slides hfixed Γ scrut
    | univ | var | global | pi | app | ann => exact checkSynth_slides fuel fuel' Γ _ expected

lemma checkSynth_slides : (fuel fuel' : Nat) → (Γ : Telescope) →
    (t expected : Term) → Slides s id (env.checkSynth fuel Γ t expected)
      (env.checkSynth fuel' (Γ.mapVars s.var) (t.mapVars s.var) (expected.mapVars s.var))
  | 0, _, _, _, _ => .outOfFuel _
  | _ + 1, 0, _, _, _ => .before_outOfFuel _
  | fuel + 1, fuel' + 1, Γ, t, expected => by
    refine (synthWith_slides fuel fuel' Γ t).bind fun found => ?_
    refine (Slides.lift (convertible_slides hfixed.bodies found expected)).bind fun same => ?_
    cases same with
    | true => exact .pure _ rfl
    | false => exact .throw _ _

lemma checkBranches_slides : (fuel fuel' : Nat) → (Γ : Telescope) →
    (v : Var) → (branches : Branches) → (expected : Term) →
    (ctors : List Name) → Slides s id (env.checkBranches fuel Γ v branches expected ctors)
      (env.checkBranches fuel' (Γ.mapVars s.var) (s.var v) (branches.mapVars s.var)
        (expected.mapVars s.var) ctors)
  | 0, _, _, _, _, _, _ => .outOfFuel _
  | _ + 1, 0, _, _, _, _, _ => .before_outOfFuel _
  | _ + 1, _ + 1, _, _, _, _, [] => .pure _ rfl
  | fuel + 1, fuel' + 1, Γ, v, branches, expected, c :: ctors => by
    have hrest := checkBranches_slides fuel fuel' Γ v branches expected ctors
    have hrefine := refine_slides hfixed Γ v c ((branches.find? c).map (·.fields))
    rw [checkBranches, checkBranches, Branches.find?_slide]
    cases hfind : branches.find? c with
    | none =>
      rw [hfind] at hrefine
      refine hrefine.bind fun candidate => ?_
      cases candidate with
      | possible r => exact .throw _ _
      | impossible c => exact hrest
    | some branch =>
      rw [hfind] at hrefine
      refine hrefine.bind fun candidate => ?_
      cases candidate with
      | possible r =>
        refine (applyCheck_slides r.subst branch.body).bind fun body => ?_
        refine (applyCheck_slides r.subst expected).bind fun type => ?_
        exact (checkWith_slides fuel fuel' r.context body type).bind fun _ => hrest
      | impossible c => exact .throw _ _

end

end

/-! ### The supply -/

lemma fieldVar_next (given : Option (List Var)) (index : Nat) (binder : Var) (n : Nat) :
    n ≤ (fieldVar given index binder).next n :=
  (fieldVar_slides (s := .still) given index binder n (Nat.zero_le n)).1

lemma replaceVar_next (position : Nat) (fields : Telescope) (split : Subst) (n : Nat) :
    n ≤ (replaceVar Γ position fields split).next n :=
  (replaceVar_slides (s := .still) Γ position fields split n (Nat.zero_le n)).1

variable (env)

lemma unify_forward (equations : List Constraint) :
    Forward (unify env Γ equations) := (unify_slides env.bodiesFixed_still Γ equations).toForward

variable {env}

lemma instantiate_forward (type : Term) (args : List Term) : Forward (env.instantiate type args) :=
  (instantiate_slides env.bodiesFixed_still type args).toForward

lemma splitType_forward (Γ : Telescope) (v : Var) : Forward (env.splitType Γ v).run :=
  (splitType_slides env.bodiesFixed_still Γ v).toForward (by simp)

lemma bindFields_forward (c : Name) (given : Option (List Var)) (index count : Nat)
    (type : Term) : Forward (env.bindFields c given index count type).run :=
  (bindFields_slides env.bodiesFixed_still c given index count type).toForward (by simp)

lemma refine_forward (Γ : Telescope) (v : Var) (c : Name) (given : Option (List Var)) :
    Forward (env.refine Γ v c given).run :=
  (refine_slides env.fixed_still Γ v c given).toForward (by simp)

lemma constructors_forward (Γ : Telescope) (v : Var) : Forward (env.constructors Γ v).run :=
  (constructors_slides env.fixed_still Γ v).toForward (by simp)

lemma synthWith_forward (fuel : Nat) (Γ : Telescope) (t : Term) :
    Forward (env.synthWith fuel Γ t).run :=
  (synthWith_slides env.fixed_still fuel fuel Γ t).toForward (by simp)

lemma checkWith_forward (fuel : Nat) (Γ : Telescope) (t expected : Term) :
    Forward (env.checkWith fuel Γ t expected).run :=
  (checkWith_slides env.fixed_still fuel fuel Γ t expected).toForward (by simp)

lemma synth_forward (t : Term) : Forward (env.synth Γ t).run :=
  synthWith_forward env.fuel Γ t

lemma check_forward (t type : Term) : Forward (env.check Γ t type).run :=
  checkWith_forward env.fuel Γ t type

end Env

lemma Unify.solve_next (σ : Subst) (v : Var) (t : Term) (n : Nat) :
    n ≤ (solve Γ σ v t).next n := (solve_slides (s := .still) Γ σ v t n (Nat.zero_le n)).1

end

end Clausal
