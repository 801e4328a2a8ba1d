import Clausal.Proofs.Formation

/-!
# What a compilation goes through

Splitting is followed call by call, with the workspace and the supply that each
call finds, and so are the functions that a compilation compiles.  Nothing is said
about how a call ends: what is visited is visited also in a compilation that fails
later or does not end.
-/

namespace Clausal

open Compile List

open Eval (Returns)

variable {decl : Declaration}

namespace Compile

/-! ### Calls of splitting -/

section Visits

/-- A call in a workspace without case splits, up to a supply.  The refinements that
are left were computed before, for the problem as it was then. -/
def SplitCall.SplitFree (n : Nat) : SplitCall → Prop
  | .problem q _ => q.SplitFree n
  | .branches q _ rs => ∃ (sig : Signature) (v : Var) (k l : Nat), sig.SplitFree k ∧
      q.SplitFree k ∧ l ≤ n ∧ ∀ r ∈ rs, Nonempty (Env.Refined { sig } q.context v k r l)

section

variable (h : (SplitCall.branches q others (r :: rs)).SplitFree i)

include h

lemma SplitCall.SplitFree.refine :
    ((q.refine r).value i).SplitFree ((q.refine r).next i) := by
  obtain ⟨sig, v, k, l, hsig, hq, hl, hrs⟩ := h
  obtain ⟨hr⟩ := hrs r mem_cons_self
  exact hr.problem_splitFree hsig hq hl (q.refine_refines r i)

lemma SplitCall.SplitFree.tail
    (hij : i ≤ j) : (SplitCall.branches q others rs).SplitFree j := by
  obtain ⟨sig, v, k, l, hsig, hq, hl, hrs⟩ := h
  exact ⟨sig, v, k, l, hsig, hq, hl.trans hij, fun r hr => hrs r (mem_cons_of_mem _ hr)⟩

end

/-- Going down the tree, the workspace only grows and the call stays formed. -/
lemma Visits.extends (hsettle : Grows root settle) (hsig : w.sig.SplitFree n) (hp : p.SplitFree n)
    (h : Visits target settle p rows w n depth call w₁ i) :
    w.Extends root n i w₁ ∧ call.SplitFree i := by
  induction h with
  | start => exact ⟨.of_eq (by omega) rfl rfl, hp⟩
  | @enter _ q _ _ v _ rs w₁ i k l _ hdecide hrefine ih =>
    obtain ⟨hextends, hq⟩ := ih
    have hk : i ≤ k := Env.decideRows_forward _ _ hdecide
    have hl : k ≤ l := Env.refinements_forward _ hrefine
    obtain ⟨hrs⟩ := Env.refinements_yields hrefine
    refine ⟨hextends.trans (.of_eq (by omega) rfl rfl), w₁.sig, v, k, l,
      (hextends.splitFree hsig).mono hk, hq.mono hk, le_refl l, hrs.refined⟩
  | @branch _ q _ r _ w₁ i _ ih =>
    obtain ⟨hextends, hcall⟩ := ih
    exact ⟨hextends.trans (.of_eq (q.refine_refines r i).le rfl rfl), hcall.refine⟩
  | @next _ fuel q _ r _ w₁ w₂ i j result _ hsplit ih =>
    obtain ⟨hextends, hcall⟩ := ih
    have hrefine := (q.refine_refines r i).le
    -- The first branch is split before the others, and only adds functions.
    have hgrown := ((splits_of_split fuel hsplit).grown hsettle
      ((hextends.splitFree hsig).mono hrefine) hcall.refine).1
    have hstep := (Workspace.Extends.of_eq hrefine rfl rfl).trans hgrown
    exact ⟨hextends.trans hstep, hcall.tail hstep.le⟩

end Visits

/-! ### Calls of a compilation -/

/-- What a compilation is asked to do. -/
inductive Task where
  | function (p : FunctionProblem)
  | leaf (r : ReachedRow)
  | auxiliaries (Γ : Telescope) (ds : List Surface.Definition) (locals : Surface.Locals)
  | compileAuxiliaries (Γ : Telescope) (locals : Surface.Locals) (declared : List Auxiliary)
  | inspection (p : Problem) (locals : Surface.Locals) (span : Span) (scrut : Surface.Term)
      (equation : Option Surface.Ident) (rows : List Row)

/-- A task, the depth it may reach, and the workspace and the supply it starts with. -/
structure Call where
  task : Task
  fuel : Nat
  workspace : Workspace
  supply : Nat

/-- A call is made by another one. -/
inductive Calls (job : Job) : Call → Call → Prop
  /-- A function settles the rows that its splitting reaches. -/
  | leaf {p : FunctionProblem} {fuel : Nat} {w claimed w₁ : Workspace} {n depth i k index : Nat}
      {q : Problem} {others : List (Nat × Row)} {row : Row} {locals : Surface.Locals}
      {forced : List Forced} : Claims job p w claimed →
      Visits p.target (leaf job fuel) p.problem p.numbered (opening p claimed) n depth
        (.problem q others) w₁ i →
      Returns (w₁.env.decideRows q others) i (.reached index row locals forced) k →
      Calls job ⟨.function p, fuel + 1, w, n⟩
        ⟨.leaf { index, row, problem := q, locals, forced }, fuel, w₁, k⟩
  /-- A row compiles its local definitions, -/
  | auxiliaries {r : ReachedRow} {fuel : Nat} {w : Workspace} {n k : Nat} :
      (∀ span, r.row.rhs ≠ .absurd span) →
      Yields (checkForced job r.problem.context r.locals r.forced) w n () w k →
      Calls job ⟨.leaf r, fuel + 1, w, n⟩
        ⟨.auxiliaries r.problem.context r.row.auxiliaries r.locals, fuel, w, k⟩
  /-- and then its inspection. -/
  | inspection {r : ReachedRow} {fuel : Nat} {w w₁ : Workspace} {n k l : Nat}
      {locals : Surface.Locals} {scrut : Surface.Term} {equation : Option Surface.Ident}
      {rows : List Row} : r.row.rhs = .inspect scrut equation rows →
      Yields (checkForced job r.problem.context r.locals r.forced) w n () w k →
      Yields (auxiliaries job fuel r.problem.context r.row.auxiliaries r.locals) w k locals
        w₁ l →
      Calls job ⟨.leaf r, fuel + 1, w, n⟩
        ⟨.inspection r.problem locals r.row.span scrut equation rows, fuel, w₁, l⟩
  /-- Local definitions are compiled once all are declared, -/
  | declared {Γ : Telescope} {ds : List Surface.Definition} {locals locals' : Surface.Locals}
      {declared : List Auxiliary} {fuel : Nat} {w w₁ : Workspace} {n k : Nat} :
      Yields (declareAuxiliaries job Γ ds locals) w n (declared, locals') w₁ k →
      Calls job ⟨.auxiliaries Γ ds locals, fuel + 1, w, n⟩
        ⟨.compileAuxiliaries Γ locals' declared, fuel, w₁, k⟩
  /-- the first -/
  | first {Γ : Telescope} {locals : Surface.Locals} {a : Auxiliary} {others : List Auxiliary}
      {rows : List Row} {fuel : Nat} {w : Workspace} {n : Nat} :
      w.sig.matrix a.arity a.definition.clauses = .ok rows →
      Calls job ⟨.compileAuxiliaries Γ locals (a :: others), fuel + 1, w, n⟩
        ⟨.function (a.problem Γ locals rows), fuel, w, n⟩
  /-- and then the others. -/
  | others {Γ : Telescope} {locals : Surface.Locals} {a : Auxiliary} {others : List Auxiliary}
      {rows : List Row} {fuel : Nat} {w w₁ : Workspace} {n k : Nat} {f : CompiledFunction} :
      w.sig.matrix a.arity a.definition.clauses = .ok rows →
      Yields (function job fuel (a.problem Γ locals rows)) w n f w₁ k →
      Calls job ⟨.compileAuxiliaries Γ locals (a :: others), fuel + 1, w, n⟩
        ⟨.compileAuxiliaries Γ locals others, fuel,
          { w₁ with auxiliaries := w₁.auxiliaries ++ [f] }, k⟩
  /-- An inspection is a function over one more value and an equation. -/
  | posed {p : Problem} {locals : Surface.Locals} {span : Span} {scrut : Surface.Term}
      {equation : Option Surface.Ident} {rows : List Row} {fuel : Nat} {w : Workspace} {n : Nat}
      {node : Inspection} (i : Poses job p locals span scrut equation rows w n node) :
      Calls job ⟨.inspection p locals span scrut equation rows, fuel + 1, w, n⟩
        ⟨.function i.problem, fuel, { w with inspections := w.inspections + 1 }, i.checkedSupply⟩

/-- A call is made in the course of another one. -/
def Reaches (job : Job) : Call → Call → Prop := Relation.ReflTransGen (Calls job)

/-! ### Calls without case splits -/

/-- What a task speaks of has no case splits. -/
def Task.SplitFree (root : Name) (n : Nat) : Task → Prop
  | .function p => p.type.SplitFree n ∧ p.locals.SplitFree n ∧ Name.Under root p.name
  | .leaf r => r.problem.SplitFree n ∧ r.locals.SplitFree n
  | .auxiliaries Γ _ locals => Γ.All Term.SplitFree n ∧ locals.SplitFree n
  | .compileAuxiliaries _ locals declared =>
    locals.SplitFree n ∧ ∀ a ∈ declared, Name.Under root a.name ∧ a.type.SplitFree n
  | .inspection p locals _ _ _ _ => p.SplitFree n ∧ locals.SplitFree n

/-- A call that is made has no case splits, and before it only functions were added. -/
lemma Calls.extends (h : Calls job c c') (hsig : c.workspace.sig.SplitFree c.supply)
    (hc : c.task.SplitFree job.root c.supply) :
    c.workspace.Extends job.root c.supply c'.supply c'.workspace ∧
      c'.task.SplitFree job.root c'.supply := by
  have hP := Term.splitFree_hereditary
  cases h with
  | @leaf p fuel w claimed w₁ n depth i k index q others row locals forced hclaims hvisits
      hdecide =>
      obtain ⟨htype, hlocals, hname⟩ := hc
      have hopening := hclaims.opening_extends htype hname
      obtain ⟨hextends, hq⟩ := hvisits.extends
        (fun _ _ _ _ _ _ hsig hp hlocals h => leaf_forms fuel hsig hp hlocals h)
        (hopening.splitFree hsig) (by
          obtain ⟨hparams, hgoal⟩ := Telescope.splitFree_ofTypeUpTo p.arity htype
          exact ⟨hparams, hgoal, hP.args hparams, hlocals⟩)
      have hk : i ≤ k := Env.decideRows_forward _ _ hdecide
      -- The row is settled after the function was declared and the rows before it were settled.
      have hwhole := hopening.trans hextends
      refine ⟨hwhole.trans (.of_eq hk rfl rfl), hq.mono hk, ?_⟩
      exact Env.decideRows_splitFree (hwhole.splitFree hsig).keeps hq hdecide
  | auxiliaries _ hforced =>
    have hk := Forward.closed.checkForced_has _ _ _ _ hforced
    exact ⟨.of_eq hk rfl rfl, hP.telescope_mono hc.1.context hk, hc.2.mono hk⟩
  | inspection _ hforced haux =>
    have hk := Forward.closed.checkForced_has _ _ _ _ hforced
    obtain ⟨hextends, hlocals⟩ := auxiliaries_forms _ (hsig.mono hk)
      (hP.telescope_mono hc.1.context hk) (hc.2.mono hk) haux
    have hwhole := (Workspace.Extends.of_eq hk rfl rfl).trans hextends
    exact ⟨hwhole, hc.1.mono hwhole.le, hlocals⟩
  | declared hdeclare =>
    obtain ⟨hextends, hlocals, hdeclared⟩ := declareAuxiliaries_forms hsig hc.1 hc.2 hdeclare
    exact ⟨hextends, hlocals, hdeclared⟩
  | first _ =>
    obtain ⟨hname, htype⟩ := hc.2 _ mem_cons_self
    exact ⟨.of_eq le_rfl rfl rfl, htype, hc.1, hname⟩
  | @others Γ locals a others rows fuel w w₁ n k f _ hfunction =>
    obtain ⟨⟨hname, htype⟩, hothers⟩ := forall_mem_cons.1 hc.2
    obtain ⟨hextends, hf, hmade⟩ := function_forms fuel (p := a.problem Γ locals rows) hsig htype
      hc.1 hname hfunction
    have hadded := hextends.add (hf ▸ hname) hmade (by omega)
    exact ⟨hadded, hc.1.mono hadded.le, fun b hb =>
      ⟨(hothers b hb).1, (hothers b hb).2.mono hadded.le⟩⟩
  | posed i =>
    obtain ⟨hn, htype, hlocals, -⟩ := i.splitFree hsig hc.1 hc.2
    refine ⟨.of_eq hn rfl rfl, htype, hlocals, ?_⟩
    rw [i.problem_eq, i.name_eq]
    exact .inr ⟨_, rfl⟩

lemma Reaches.extends (h : Reaches job c c') (hsig : c.workspace.sig.SplitFree c.supply)
    (hc : c.task.SplitFree job.root c.supply) :
    c.workspace.Extends job.root c.supply c'.supply c'.workspace ∧
      c'.task.SplitFree job.root c'.supply := by
  induction h with
  | refl => exact ⟨.of_eq (by omega) rfl rfl, hc⟩
  | tail _ hcalls ih =>
    obtain ⟨hextends, htask⟩ := ih
    obtain ⟨hextends', htask'⟩ := hcalls.extends (hextends.splitFree hsig) htask
    exact ⟨hextends.trans hextends', htask'⟩

/-! ### Where auxiliaries come from -/

/-- The call compiles a function and succeeds. -/
def Call.Makes (job : Job) (c : Call) (f : CompiledFunction) : Prop :=
  ∃ p w m, c.task = .function p ∧ Yields (function job c.fuel p) c.workspace c.supply f w m

/-- Every function that a workspace has and another one has not is made in the course of a call. -/
def Sources (job : Job) (c : Call) (w w' : Workspace) : Prop :=
  ∀ f ∈ w'.auxiliaries, f ∈ w.auxiliaries ∨ ∃ c', Reaches job c c' ∧ c'.Makes job f

namespace Sources

variable {c : Call}

lemma of_eq (haux : w'.auxiliaries = w.auxiliaries) : Sources job c w w' := fun _ hf =>
  .inl (haux ▸ hf)

lemma trans (h : Sources job c w w₁) (h' : Sources job c w₁ w') : Sources job c w w' :=
  fun f hf => (h' f hf).elim (h f) .inr

variable {c' : Call}

lemma of_calls (hcalls : Calls job c c') (h : Sources job c' w w') :
    Sources job c w w' := fun f hf =>
  (h f hf).imp_right fun ⟨d, hd, hmakes⟩ => ⟨d, .head hcalls hd, hmakes⟩

lemma add (h : Sources job c w w') (hcalls : Calls job c c') (hmakes : c'.Makes job f) :
    Sources job c w { w' with auxiliaries := w'.auxiliaries ++ [f] } := by
  intro g hg
  rcases mem_append.1 hg with hg | hg
  · exact h g hg
  · obtain rfl := mem_singleton.1 hg
    exact .inr ⟨c', .single hcalls, hmakes⟩

end Sources

lemma declareAuxiliaries_auxiliaries
    (h : Yields (declareAuxiliaries job Γ ds locals) w n result w' m) :
    w'.auxiliaries = w.auxiliaries := by
  induction ds generalizing locals result w n with
  | nil =>
    obtain ⟨-, rfl, -⟩ := declareAuxiliaries_nil h
    rfl
  | cons d ds ih =>
    obtain ⟨a, rest, w₁, k, ⟨hd⟩, -, hrest⟩ := declareAuxiliaries_cons h
    rw [ih hrest, hd.workspace]

mutual

/-- The functions that are added while a function is compiled were all made. -/
lemma function_sources : (fuel : Nat) → ∀ {p f w w' n m},
    Yields (function job fuel p) w n f w' m → Sources job ⟨.function p, fuel, w, n⟩ w w'
  | 0, _, _, _, _, _, _, h => (yields_outOfFuel h).elim
  | fuel + 1, p, f, w, w', n, m, h => by
    obtain ⟨run⟩ := function_run h
    have hopening : Sources job ⟨.function p, fuel + 1, w, n⟩ w (opening p run.claimed) :=
      .of_eq run.claims.unchanged.2
    have hsplit : Sources job ⟨.function p, fuel + 1, w, n⟩ (opening p run.claimed)
        run.settled := by
      refine Splits.relates (fun w => .of_eq rfl) .trans ?_ .start run.splits
      intro depth q others w₁ w₂ i k j index row locals forced tree hvisits hdecide hyields
      exact (leaf_sources fuel hyields).of_calls (.leaf run.claims hvisits hdecide)
    obtain ⟨warnings, hends⟩ := run.ends
    have haux := congrArg Workspace.auxiliaries hends
    exact (hopening.trans hsplit).trans (.of_eq haux)

lemma leaf_sources : (fuel : Nat) → ∀ {r tree w w' n m}, Yields (leaf job fuel r) w n tree w' m →
    Sources job ⟨.leaf r, fuel, w, n⟩ w w'
  | 0, _, _, _, _, _, _, h => (yields_outOfFuel h).elim
  | fuel + 1, r, tree, w, w', n, m, h => by
    cases leaf_settles h with
    | absurd => exact .of_eq rfl
    | term hrhs hforced haux =>
      exact (auxiliaries_sources fuel haux).of_calls (.auxiliaries (by simp [hrhs]) hforced)
    | inspect hrhs hforced haux hinspect =>
      exact ((auxiliaries_sources fuel haux).of_calls (.auxiliaries (by simp [hrhs]) hforced)).trans
        ((inspection_sources fuel hinspect).of_calls (.inspection hrhs hforced haux))

lemma auxiliaries_sources : (fuel : Nat) → ∀ {Γ ds locals locals' w w' n m},
    Yields (auxiliaries job fuel Γ ds locals) w n locals' w' m →
    Sources job ⟨.auxiliaries Γ ds locals, fuel, w, n⟩ w w'
  | 0, _, _, _, _, _, _, _, _, h => (yields_outOfFuel h).elim
  | fuel + 1, Γ, ds, locals, locals', w, w', n, m, h => by
    obtain ⟨declared, w₁, k, hdeclare, hcompile⟩ := auxiliaries_yields h
    have hdeclared : Sources job ⟨.auxiliaries Γ ds locals, fuel + 1, w, n⟩ w w₁ :=
      .of_eq (declareAuxiliaries_auxiliaries hdeclare)
    exact hdeclared.trans ((compileAuxiliaries_sources fuel hcompile).of_calls (.declared hdeclare))

lemma compileAuxiliaries_sources : (fuel : Nat) → ∀ {Γ locals declared u w w' n m},
    Yields (compileAuxiliaries job fuel Γ locals declared) w n u w' m →
    Sources job ⟨.compileAuxiliaries Γ locals declared, fuel, w, n⟩ w w'
  | 0, _, _, _, _, _, _, _, _, h => (yields_outOfFuel h).elim
  | _ + 1, _, _, [], _, _, _, _, _, h => by
    obtain ⟨rfl, -⟩ := compileAuxiliaries_nil h
    exact .of_eq rfl
  | fuel + 1, Γ, locals, a :: others, u, w, w', n, m, h => by
    obtain ⟨rows, f, w₁, k, hrows, hfunction, hothers⟩ := compileAuxiliaries_cons h
    have hcalls : Calls job ⟨.compileAuxiliaries Γ locals (a :: others), fuel + 1, w, n⟩
        ⟨.function (a.problem Γ locals rows), fuel, w, n⟩ := .first hrows
    have hfirst := ((function_sources fuel hfunction).of_calls hcalls).add hcalls
      ⟨_, _, _, rfl, hfunction⟩
    exact hfirst.trans
      ((compileAuxiliaries_sources fuel hothers).of_calls (.others hrows hfunction))

lemma inspection_sources : (fuel : Nat) → ∀ {p locals span scrut equation rows result w w' n m},
    Yields (inspection job fuel p locals span scrut equation rows) w n result w' m →
    Sources job ⟨.inspection p locals span scrut equation rows, fuel, w, n⟩ w w'
  | 0, _, _, _, _, _, _, _, _, _, _, _, h => (yields_outOfFuel h).elim
  | fuel + 1, p, locals, span, scrut, equation, rows, result, w, w', n, m, h => by
    obtain ⟨i⟩ := inspection_yields h
    have hcalls : Calls job ⟨.inspection p locals span scrut equation rows, fuel + 1, w, n⟩ _ :=
      .posed i.toPoses
    have hcompiled := (function_sources fuel i.compiles).of_calls hcalls
    rw [i.workspace]
    exact hcompiled.add hcalls ⟨_, _, _, rfl, i.compiles⟩

end

end Compile

/-! ### Definitions -/

/-- The call that compiles a definition whose name is claimed. -/
def Declaration.call (decl : Declaration) (rows : List Row) (w : Workspace) (n : Nat) :
    Call where
  task := .function
    { name := decl.name, span := decl.span, type := decl.type,
      arity := (Telescope.ofType decl.type).1.length, rows, locals := [] }
  fuel := ({ sig := w.sig } : Env).fuel
  workspace := w
  supply := n

/-- The job of a definition. -/
def Declaration.job (decl : Declaration) (names : List Name) (options : CompileOptions) : Job where
  root := decl.name
  transparent := decl.transparent
  auxiliaries := names
  options := options

lemma Declaration.call_splitFree (htype : decl.type.SplitFree n) :
    (decl.call rows w n).task.SplitFree (decl.job names options).root n :=
  ⟨htype, by simp [Surface.Locals.SplitFree], .inl rfl⟩

/-- Every function of a compiled definition was made by a call in the course of its
compilation. -/
lemma compile_makes (h : Returns (compile base sig decl options) n (.ok d, base') m) :
    ∃ names rows w, Surface.auxiliaryNames decl.clauses = .ok names ∧ w.sig = sig ∧
      sig.matrix (Telescope.ofType decl.type).1.length decl.clauses = .ok rows ∧
      ∀ f ∈ d.functions, ∃ c, Reaches (decl.job names options) (decl.call rows w n) c ∧
        c.Makes (decl.job names options) f := by
  obtain ⟨claimed, w, -, hrun, -⟩ := compile_yields h
  obtain ⟨names, rows, hnames, hrows, hfunction, haux, -⟩ := definition_yields hrun
  refine ⟨names, rows, { sig, base := claimed, held := [decl.name] }, hnames, rfl, hrows,
    forall_mem_cons.2 ⟨?_, fun f hf => ?_⟩⟩
  · exact ⟨_, .refl, _, _, _, rfl, hfunction⟩
  · exact (function_sources _ hfunction f (haux ▸ hf)).resolve_left (by simp)

end Clausal
