import Clausal.Compilation.Function
import Clausal.Proofs.Principle
import Clausal.Proofs.Splitting

/-!
# The steps of a compilation

`Compile.Closed` lists the kinds of steps that a compilation is put together from.  A
property that they have and that passes to steps done one after another is a property
of every compilation, whether it succeeds or not.
-/

namespace Clausal

open Env Eval

/-! ### The supply -/

namespace Fresh

variable {ε α β : Type}

/-- Resolution takes variables from the supply and never gives one back. -/
def Forward (x : ExceptT ε Fresh α) : Prop := ∀ n, n ≤ (x.run : Fresh (Except ε α)).next n

namespace Forward

protected lemma pure (a : α) : Forward (pure a : ExceptT ε Fresh α) := fun n => le_refl n

protected lemma bind {x : ExceptT ε Fresh α} {f : α → ExceptT ε Fresh β} (hx : Forward x)
    (hf : ∀ a, Forward (f a)) : Forward (x >>= f) := by
  intro n
  have hrun : (x >>= f).run = (x.run : Fresh (Except ε α)) >>= ExceptT.bindCont f := rfl
  rw [hrun, next_bind]
  refine le_trans (hx n) ?_
  cases value x.run n with
  | ok a => exact hf a _
  | error e => exact le_rfl

end Forward
end Fresh

namespace Surface.Scope

variable {scope : Scope}

lemma term_forward (locals : Locals) (t : Term) : Fresh.Forward (scope.term locals t) :=
  fun n => (term_outcome t [] n).1

lemma params_forward (locals : Locals) (ps : List Param) : Fresh.Forward (scope.params locals ps) :=
  fun n => (params_outcome (fun p _ => term_outcome p.type) [] n).1

lemma funType_forward (locals : Locals) (ps : List Param) (result : Term) :
    Fresh.Forward (scope.funType locals ps result) :=
  .bind (params_forward locals ps) fun _ => .bind (term_forward _ result) fun _ => .pure _

end Surface.Scope

lemma Eval.Forward.run_adapt (f : ε → ε') {x : ExceptT ε Eval α} (hx : Forward x.run) :
    Forward (ExceptT.adapt f x).run := by
  change Forward ((x.run : Eval (Except ε α)) >>= fun r => pure (r.mapError f))
  exact hx.bind fun _ => .pure _

lemma Equation.generate_forward (sig : Signature) (function : Name) (tree : SplitTree) :
    Forward (Equation.generate sig function tree).run := by
  have hchecks : ∀ equations : List Equation, Forward
      (equations.forM (Equation.check { sig, unfold := [function] })).run := by
    intro equations
    induction equations with
    | nil => exact .run_pure _
    | cons e equations ih =>
      exact .run_bind (.run_adapt _ (check_forward _ _ _)) fun _ => ih
  exact .run_bind (hchecks _) fun _ => .run_pure _

lemma Elimination.derive_forward (sig : Signature) (function : Name) (Γ : Telescope)
    (tree : SplitTree) : Forward (Elimination.derive sig function Γ tree).run := by
  refine .run_bind (.run_liftFresh fun n => ?_) fun e =>
    .run_bind (.run_adapt _ (check_forward _ _ _)) fun _ => .run_pure _
  obtain ⟨hdrafts⟩ := Elimination.draft_drafts function Γ tree n
  obtain ⟨h₁, h₂, h₃⟩ := hdrafts.supply
  omega

/-- The workspace over another rule base. -/
def Workspace.rebase (w : Workspace) (base : RuleBase) : Workspace := { w with base }

/-! ### Properties of steps -/

namespace Compile

/-- A property of steps that passes from parts to the whole.  The rule base is
not read but where a name is claimed, and nothing else changes what is held. -/
structure Closed (P : {α : Type} → Compile α → Prop) : Prop where
  bind : ∀ {α β : Type} {x : Compile α} {f : α → Compile β}, P x → (∀ a, P (f a)) → P (x >>= f)
  pure : ∀ {α : Type} (a : α), P (pure a)
  throw : ∀ {α : Type} (e : CompileError), P (throw e : Compile α)
  outOfFuel : ∀ {α : Type}, P (outOfFuel : Compile α)
  attempt : ∀ {α : Type} {a : Attempt α}, Forward a.run → P (attempt a)
  lift : ∀ {α : Type} {x : Eval α}, Forward x → P (liftM x : Compile α)
  get_bind : ∀ {α : Type} {k : Workspace → Compile α}, (∀ w base, k (w.rebase base) = k w) →
    (∀ w, P (k w)) → P (get >>= k)
  modify : ∀ {f : Workspace → Workspace}, (∀ w base, f (w.rebase base) = (f w).rebase base) →
    (∀ w, (f w).held = w.held) → P (modify f : Compile PUnit)
  update : ∀ {α : Type} {f : Workspace → Workspace} {g : Workspace → α},
    (∀ w base, f (w.rebase base) = (f w).rebase base) → (∀ w base, g (w.rebase base) = g w) →
    (∀ w, (f w).held = w.held) → P (do let w ← get; set (f w); return g w)
  claim : ∀ (span : Span) (name : Name), P (claim span name)

namespace Closed

variable (hP : Closed P)

include hP

variable {α : Type}

lemma liftFresh {x : Fresh α} (hx : ∀ n, n ≤ x.next n) : P (liftM x : Compile α) :=
  hP.lift (x := (liftM x : Eval α)) (.lift hx)

lemma checked (hc : Forward c.run) : P (checked report c) := hP.attempt (hc.run_adapt report)

lemma resolved (hr : Fresh.Forward r) : P (resolved r) := by
  refine hP.attempt (.bind (.lift hr) fun result => ?_)
  cases result with
  | ok a | error e => exact .pure _

lemma env : P env := hP.get_bind (fun _ _ => rfl) fun _ => hP.pure _

lemma scope (job : Job) : P (scope job) := hP.get_bind (fun _ _ => rfl) fun _ => hP.pure _

lemma addFunction (f : Function) : P (addFunction f) :=
  hP.modify (fun _ _ => rfl) fun _ => rfl

lemma addAuxiliary (f : CompiledFunction) : P (addAuxiliary f) :=
  hP.modify (fun _ _ => rfl) fun _ => rfl

lemma liftedName (job : Job) (name : Name) : P (liftedName job name) :=
  hP.update (fun _ _ => rfl) (fun _ _ => rfl) fun _ => rfl

lemma inspectionName (job : Job) : P (inspectionName job) :=
  hP.update (fun _ _ => rfl) (fun _ _ => rfl) fun _ => rfl

/-! ### The steps of a compilation -/

mutual

lemma split_has (hsettle : ∀ r, P (settle r)) : (fuel : Nat) →
      (p : Problem) → (rows : List (Nat × Row)) → P (split target settle fuel p rows)
  | 0, _, _ => hP.outOfFuel
  | fuel + 1, p, rows => by
    rw [split]
    refine hP.bind hP.env fun env => ?_
    refine hP.bind (hP.lift (decideRows_forward _ _)) fun decision => ?_
    split
    · exact hP.bind (hsettle _) fun _ => hP.pure _
    · exact hP.throw _
    · refine hP.bind hP.env fun env => ?_
      refine hP.bind (hP.lift (findEmpty_forward _)) fun found => ?_
      split
      · exact hP.pure _
      · exact hP.throw _
    · refine hP.bind hP.env fun env => ?_
      refine hP.bind (hP.checked (refinements_forward _)) fun rs => ?_
      split
      · exact hP.pure _
      · exact hP.bind (splitBranches_has hsettle fuel p _ _) fun _ => hP.pure _

lemma splitBranches_has (hsettle : ∀ r, P (settle r)) : (fuel : Nat) →
      (p : Problem) → (rows : List (Nat × Row)) → (rs : List Refinement) →
      P (splitBranches target settle fuel p rows rs)
  | 0, _, _, _ => hP.outOfFuel
  | _ + 1, _, _, [] => hP.pure _
  | fuel + 1, p, rows, r :: rs => by
    rw [splitBranches]
    refine hP.bind (hP.liftFresh fun n => (p.refine_refines r n).le) fun refined => ?_
    refine hP.bind (split_has hsettle fuel refined rows) fun _ => ?_
    refine hP.bind (splitBranches_has hsettle fuel p rows rs) fun _ => ?_
    exact hP.pure _

end

lemma checkForced_has (job : Job) (Γ : Telescope) (locals : Surface.Locals)
    (forced : List Forced) : P (checkForced job Γ locals forced) := by
  induction forced with
  | nil => exact hP.pure _
  | cons f fs ih =>
    rw [checkForced]
    refine hP.bind (hP.scope job) fun _ => ?_
    refine hP.bind (hP.resolved (Surface.Scope.term_forward _ _)) fun _ => ?_
    refine hP.bind hP.env fun _ => ?_
    refine hP.bind (hP.lift (convertible_forward _ _ _)) fun b => ?_
    split
    · exact ih
    · exact hP.throw _

lemma declareAuxiliaries_has (job : Job) (Γ : Telescope)
    (ds : List Surface.Definition) (locals : Surface.Locals) :
    P (declareAuxiliaries job Γ ds locals) := by
  induction ds generalizing locals with
  | nil => exact hP.pure _
  | cons d ds ih =>
    rw [declareAuxiliaries]
    refine hP.bind (hP.liftedName job _) fun _ => ?_
    refine hP.bind (hP.scope job) fun _ => ?_
    refine hP.bind (hP.resolved (Surface.Scope.funType_forward _ _ _)) fun _ => ?_
    refine hP.bind hP.env fun _ => ?_
    refine hP.bind (hP.checked (check_forward _ _ _)) fun _ => ?_
    refine hP.bind (hP.addFunction _) fun _ => ?_
    refine hP.bind (ih _) fun _ => ?_
    exact hP.pure _

lemma reportRedundant_has (job : Job) (rows : List Row)
    (reached : List Nat) : P (reportRedundant job rows reached) := by
  unfold reportRedundant
  induction rows.zipIdx with
  | nil => exact hP.pure _
  | cons entry entries ih =>
    change P (_ >>= fun _ => entries.forM _)
    refine hP.bind ?_ fun _ => ih
    dsimp only
    split
    · exact hP.pure _
    · split
      · refine hP.modify (fun _ _ => rfl) fun _ => ?_
        exact rfl
      · exact hP.throw _

lemma finish_has (job : Job) (p : FunctionProblem) (Γ : Telescope)
    (tree : SplitTree) : P (finish job p Γ tree) := by
  unfold finish
  refine hP.bind hP.env fun _ => ?_
  refine hP.bind (hP.checked (check_forward _ _ _)) fun _ => ?_
  refine hP.bind (hP.addFunction _) fun _ => ?_
  refine hP.get_bind (fun _ _ => rfl) fun _ => ?_
  refine hP.bind (hP.attempt (Equation.generate_forward _ _ _)) fun _ => ?_
  refine hP.get_bind (fun _ _ => rfl) fun _ => ?_
  refine hP.bind (hP.attempt (Elimination.derive_forward _ _ _ _)) fun _ => ?_
  refine hP.bind (hP.modify (fun _ _ => rfl) fun _ => rfl) fun _ => ?_
  refine hP.bind (hP.addFunction _) fun _ => ?_
  exact hP.pure _

mutual

lemma function_has (job : Job) : (fuel : Nat) → (p : FunctionProblem) →
    P (function job fuel p)
  | 0, _ => hP.outOfFuel
  | fuel + 1, p => by
    rw [function]
    split
    -- Every function but the root claims its name.
    on_goal 1 => refine hP.bind (hP.claim _ _) fun _ => ?_
    all_goals
      refine hP.bind (hP.addFunction _) fun _ => ?_
      refine hP.bind (hP.split_has (leaf_has job fuel) _ _ _) fun _ => ?_
      refine hP.bind (hP.reportRedundant_has _ _ _) fun _ => ?_
      exact hP.finish_has _ _ _ _

lemma leaf_has (job : Job) : (fuel : Nat) → (r : ReachedRow) →
    P (leaf job fuel r)
  | 0, _ => hP.outOfFuel
  | fuel + 1, r => by
    rw [leaf]
    split
    · refine hP.bind hP.env fun _ => ?_
      refine hP.bind (hP.lift (findEmpty_forward _)) fun found => ?_
      split
      · exact hP.pure _
      · exact hP.throw _
    · refine hP.bind (hP.checkForced_has _ _ _ _) fun _ => ?_
      refine hP.bind (auxiliaries_has job fuel _ _ _) fun _ => ?_
      refine hP.bind (hP.scope job) fun _ => ?_
      refine hP.bind (hP.resolved (Surface.Scope.term_forward _ _)) fun _ => ?_
      refine hP.bind hP.env fun _ => ?_
      refine hP.bind (hP.checked (check_forward _ _ _)) fun _ => ?_
      exact hP.pure _
    · refine hP.bind (hP.checkForced_has _ _ _ _) fun _ => ?_
      refine hP.bind (auxiliaries_has job fuel _ _ _) fun _ => ?_
      refine hP.bind (inspection_has job fuel _ _ _ _ _ _) fun _ => ?_
      exact hP.pure _

lemma auxiliaries_has (job : Job) : (fuel : Nat) → (Γ : Telescope) →
    (ds : List Surface.Definition) → (locals : Surface.Locals) →
    P (auxiliaries job fuel Γ ds locals)
  | 0, _, _, _ => hP.outOfFuel
  | fuel + 1, Γ, ds, locals => by
    rw [auxiliaries]
    refine hP.bind (hP.declareAuxiliaries_has job Γ ds locals) fun _ => ?_
    refine hP.bind (compileAuxiliaries_has job fuel Γ _ _) fun _ => ?_
    exact hP.pure _

lemma compileAuxiliaries_has (job : Job) : (fuel : Nat) → (Γ : Telescope) →
    (locals : Surface.Locals) → (declared : List Auxiliary) →
    P (compileAuxiliaries job fuel Γ locals declared)
  | 0, _, _, _ => hP.outOfFuel
  | _ + 1, _, _, [] => hP.pure _
  | fuel + 1, Γ, locals, a :: rest => by
    rw [compileAuxiliaries]
    refine hP.get_bind (fun _ _ => rfl) fun _ => ?_
    refine hP.bind (hP.attempt (.pure _)) fun _ => ?_
    refine hP.bind (function_has job fuel _) fun _ => ?_
    refine hP.bind (hP.addAuxiliary _) fun _ => ?_
    exact compileAuxiliaries_has job fuel Γ locals rest

lemma inspection_has (job : Job) : (fuel : Nat) → (p : Problem) →
    (locals : Surface.Locals) → (span : Span) → (scrut : Surface.Term) →
    (equation : Option Surface.Ident) → (rows : List Row) →
    P (inspection job fuel p locals span scrut equation rows)
  | 0, _, _, _, _, _, _ => hP.outOfFuel
  | fuel + 1, p, locals, span, scrut, equation, rows => by
    rw [inspection]
    refine hP.bind (hP.scope job) fun _ => ?_
    refine hP.bind (hP.resolved (Surface.Scope.term_forward _ _)) fun _ => ?_
    refine hP.bind hP.env fun _ => ?_
    refine hP.bind (hP.checked (synth_forward _ _)) fun _ => ?_
    refine hP.bind (hP.liftFresh fun n => Nat.le_succ n) fun _ => ?_
    refine hP.bind (hP.liftFresh fun n => Nat.le_succ n) fun _ => ?_
    refine hP.bind hP.env fun _ => ?_
    refine hP.bind (hP.checked (check_forward _ _ _)) fun _ => ?_
    refine hP.bind (hP.inspectionName job) fun _ => ?_
    refine hP.bind (function_has job fuel _) fun _ => ?_
    refine hP.bind hP.env fun _ => ?_
    refine hP.bind (hP.checked (check_forward _ _ _)) fun _ => ?_
    refine hP.bind (hP.addAuxiliary _) fun _ => ?_
    exact hP.pure _

end

/-- A property of steps is one of every compilation. -/
lemma definition_has (decl : Declaration) (options : CompileOptions) :
    P (definition decl options) := by
  unfold definition
  refine hP.get_bind (fun _ _ => rfl) fun _ => ?_
  refine hP.bind (hP.attempt (.pure _)) fun _ => ?_
  refine hP.bind (hP.attempt (.pure _)) fun _ => ?_
  refine hP.bind (hP.function_has _ _ _) fun _ => ?_
  refine hP.get_bind (fun _ _ => rfl) fun _ => ?_
  exact hP.pure _

end Closed

/-! ### The supply of a compilation -/

/-- No number is handed out twice, whether the step succeeds or not. -/
def Forward {α : Type} (x : Compile α) : Prop :=
  ∀ ⦃w : Workspace⦄ ⦃n : Nat⦄ ⦃r : Except CompileError α⦄ ⦃w' : Workspace⦄ ⦃m : Nat⦄,
    Returns (x.run.run w) n (r, w') m → n ≤ m

lemma Forward.bind {α β : Type} {x : Compile α} {f : α → Compile β} (hx : Forward x)
    (hf : ∀ a, Forward (f a)) : Forward (x >>= f) := by
  intro w n r w' m h
  rcases returns_state_bind.1 h with ⟨a, w₁, k, hfirst, hrest⟩ | ⟨e, hfirst, -⟩
  · exact le_trans (hx hfirst) (hf a hrest)
  · exact hx hfirst

lemma Forward.of_state
    (hx : ∀ w, ∃ a : Except CompileError α × Workspace, x.run.run w = pure a) : Forward x := by
  intro w n r w' m h
  obtain ⟨a, ha⟩ := hx w
  rw [ha] at h
  exact le_of_eq (returns_pure.1 h).2

lemma Forward.closed : Closed @Forward where
  bind := .bind
  pure _ := .of_state fun _ => ⟨_, rfl⟩
  throw _ := .of_state fun _ => ⟨_, rfl⟩
  outOfFuel h := (returns_outOfFuel h).elim
  attempt {α a} ha := by
    intro w n r w' m h
    change Returns (a.run >>= fun r => Pure.pure (r, w) : Eval _) n (r, w') m at h
    obtain ⟨r, k, hr, h⟩ := returns_bind.1 h
    obtain ⟨-, rfl⟩ := returns_pure.1 h
    exact ha hr
  lift {α x} hx := by
    intro w n r w' m h
    obtain ⟨a, ha, -⟩ := returns_state_lift.1 h
    exact hx ha
  get_bind _ hk := by
    intro w n r w' m h
    exact hk w h
  modify _ _ := .of_state fun _ => ⟨_, rfl⟩
  update _ _ _ := .of_state fun _ => ⟨_, rfl⟩
  claim span name := by
    refine .bind (.of_state fun _ => ⟨_, rfl⟩) fun w => ?_
    split
    · exact .of_state fun _ => ⟨_, rfl⟩
    · exact .of_state fun _ => ⟨_, rfl⟩

end Compile
end Clausal
