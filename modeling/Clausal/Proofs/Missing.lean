import Clausal.Proofs.SplitDepth

/-!
# Arguments that no clause covers

When splitting has no rows left, it reports the arguments that it has come to.  As in
`Clausal.Proofs.SplitDepth`, the compilation must take no name of a constructor or of
a function that reduction unfolds.
-/

namespace Clausal

open Eval Option

variable {m : Nat} {q : Problem} {span : Span}

/-! ### Errors of other kinds -/

/-- The error reports arguments that are not covered. -/
def CompileError.ReportsMissing : CompileError → Prop
  | .nonExhaustive _ _ _ _ => True
  | _ => False

/-- The result is no report that something is missing. -/
def QuietResult {α : Type} (x : Except CompileError α) : Prop :=
  ∀ ⦃e : CompileError⦄, x = .error e → ¬ e.ReportsMissing

namespace QuietResult

variable {α β : Type}

protected lemma ok (a : α) : QuietResult (.ok a) := fun _ h => by cases h

protected lemma error (he : ¬ e.ReportsMissing) :
    QuietResult (.error e : Except CompileError α) := fun _ h => Except.error.inj h ▸ he

protected lemma bind (hx : QuietResult x) (hf : ∀ a, QuietResult (f a)) :
    QuietResult (x >>= f) := by
  cases x with
  | error e => exact .error (hx rfl)
  | ok a => exact hf a

end QuietResult

variable {e : CompileError}

lemma firstRebound?_other (h : firstRebound? seen idents = some e) : ¬ e.ReportsMissing := by
  induction idents generalizing seen with
  | nil => cases h
  | cons ident idents ih =>
    rw [firstRebound?] at h
    split at h
    · cases h
      exact id
    · exact ih h

lemma Surface.auxiliaryNames_quiet (clauses : List Clause) :
    QuietResult (auxiliaryNames clauses) := by
  unfold auxiliaryNames
  dsimp only
  split
  · next hrebound => exact .error (firstRebound?_other hrebound)
  · exact .ok _

namespace Signature

variable {sig : Signature}

mutual

/-- Clauses are read before it is known what they cover. -/
lemma pattern_quiet : (p : Surface.Pattern) → QuietResult (sig.pattern p)
  | .name span name => by
    rw [pattern]
    split
    · split
      · exact .ok _
      · exact .error id
    · exact .ok _
  | .placeholder _ => .ok _
  | .ctor span head args => by
    rw [pattern]
    split
    · split
      · exact .bind (patterns_quiet args) fun _ => .ok _
      · exact .error id
    · split <;> exact .error id
  | .inaccessible _ _ => .ok _
  | .list span elems => by
    rw [pattern]
    split
    · exact .bind (patterns_quiet elems) fun _ => .ok _
    · exact .error id

lemma patterns_quiet : (ps : List Surface.Pattern) → QuietResult (sig.patterns ps)
  | [] => .ok _
  | p :: ps => .bind (pattern_quiet p) fun _ => .bind (patterns_quiet ps) fun _ => .ok _

end

lemma clausePatterns_quiet (arity : Nat) (inherited : List Surface.Ident) (span : Span)
    (ps : List Surface.Pattern) : QuietResult (sig.clausePatterns arity inherited span ps) := by
  unfold clausePatterns
  split
  · refine .bind (patterns_quiet ps) fun _ => ?_
    split
    · next hrebound => exact .error (firstRebound?_other hrebound)
    · exact .ok _
  · exact .error id

mutual

lemma row_quiet (arity : Nat) (inherited : List Surface.Ident) : (c : Surface.Clause) →
    QuietResult (sig.row arity inherited c)
  | .mk span ps rhs _ =>
    .bind (clausePatterns_quiet arity inherited span ps) fun _ =>
      .bind (rowRhs_quiet _ rhs) fun _ => .ok _

lemma rowRhs_quiet (bound : List Surface.Ident) : (rhs : Surface.Rhs) →
    QuietResult (sig.rowRhs bound rhs)
  | .term _ | .absurd _ => .ok _
  | .inspect _ _ clauses => .bind (rows_quiet 1 _ clauses) fun _ => .ok _

lemma rows_quiet (arity : Nat) (inherited : List Surface.Ident) : (cs : List Surface.Clause) →
    QuietResult (sig.rows arity inherited cs)
  | [] => .ok _
  | c :: cs =>
    .bind (row_quiet arity inherited c) fun _ =>
      .bind (rows_quiet arity inherited cs) fun _ => .ok _

end

end Signature

/-! ### Values that are neither variables nor of constructor form -/

/-- A value that cannot be matched is reported as such. -/
def Progress.FaultsOther (p : Progress) : Prop := ∀ e, p.failed = some e → ¬ e.ReportsMissing

namespace Env

variable {env : Env}

lemma matchKeeps_other : env.MatchKeeps (fun _ _ => True) fun _ p => p.FaultsOther where
  mono _ ht := ht
  later _ hp := hp
  whnf ht _ := ht
  fields _ _ _ _ := trivial
  bind _ _ hp := hp
  force _ hp := hp
  block _ _ _ hp := hp
  fail {n p} span value hp e he := by
    cases hfailed : p.failed with
    | some e' =>
      have heq : e' = e := by simpa [Progress.fail, hfailed] using he
      exact heq ▸ hp e' hfailed
    | none =>
      have heq : CompileError.typing span (.caseOnNonVariable value) = e := by
        simpa [Progress.fail, hfailed] using he
      exact heq ▸ id

lemma decideRows_failed (h : Returns (env.decideRows q rows) n (.failed e) m) :
    ¬ e.ReportsMissing := by
  induction rows generalizing n with
  | nil => simp [decideRows] at h
  | cons entry rows ih =>
    obtain ⟨index, row⟩ := entry
    rw [decideRows] at h
    obtain ⟨result, k, hmatch, h⟩ := returns_bind.1 h
    cases result with
    | mismatch => exact ih h
    | matched | blocked => simp at h
    | failed error =>
      cases (returns_pure.1 h).1
      obtain ⟨progress, l, hpatterns, h⟩ := returns_bind.1 hmatch
      cases progress with
      | none => simp at h
      | some p =>
        have hother := matchKeeps_other.patterns row.patterns (fun _ _ => trivial)
          (fun _ h => by cases h) hpatterns
        obtain ⟨houtcome, -⟩ := returns_pure.1 h
        unfold Progress.outcome at houtcome
        split at houtcome
        · cases houtcome
        · next hfailed =>
            cases houtcome
            exact hother e hfailed
        · cases houtcome

end Env

/-! ### Steps that report nothing missing -/

/-- The attempt does not fail because something is missing. -/
def Attempt.Quiet {α : Type} (x : Attempt α) : Prop :=
  ∀ ⦃n m : Nat⦄ ⦃e : CompileError⦄, Returns x.run n (.error e) m → ¬ e.ReportsMissing

namespace Attempt.Quiet

variable {α β : Type}

protected lemma pure (a : α) : Quiet (pure a : Attempt α) := fun _ _ _ h => by
  cases (returns_pure.1 h).1

protected lemma bind (hx : Quiet x) (hf : ∀ a, Quiet (f a)) : Quiet (x >>= f) := by
  intro n m e h
  rcases run_bind_cases.1 h with ⟨e', hx', heq⟩ | ⟨a, k, -, hf'⟩
  · cases heq
    exact hx hx'
  · exact hf a hf'

protected lemma lift (x : Eval α) : Quiet (liftM x : Attempt α) := by
  intro n m e h
  have h' : Returns (x >>= fun b => pure (Except.ok b) : Eval _) n (.error e) m := h
  obtain ⟨a, k, -, h'⟩ := returns_bind.1 h'
  cases (returns_pure.1 h').1

lemma adapt (hreport : ∀ e, ¬ (report e).ReportsMissing) (x : Check α) :
    Quiet (ExceptT.adapt report x : Attempt α) := by
  intro n m e h
  have h' : Returns ((x.run : Eval _) >>= fun r => pure (r.mapError report)) n (.error e) m := h
  obtain ⟨r, k, -, h'⟩ := returns_bind.1 h'
  obtain ⟨heq, -⟩ := returns_pure.1 h'
  cases r with
  | ok a => cases heq
  | error error => exact Except.error.inj heq ▸ hreport error

end Attempt.Quiet

lemma Equation.generate_quiet (sig : Signature) (function : Name) (tree : SplitTree) :
    (generate sig function tree).Quiet := by
  unfold generate
  refine .bind ?_ fun _ => .pure _
  induction ofTree function tree with
  | nil => exact .pure _
  | cons q qs ih => exact .bind (.adapt (fun _ => id) _) fun _ => ih

lemma Elimination.derive_quiet (sig : Signature) (function : Name) (Γ : Telescope)
    (tree : SplitTree) : (derive sig function Γ tree).Quiet := by
  unfold derive
  exact .bind (.lift _) fun _ => .bind (.adapt (fun _ => id) _) fun _ => .pure _

namespace Compile

variable {α β : Type} {e : CompileError}

/-- The step does not fail because something is missing. -/
def Quiet (x : Compile α) : Prop :=
  ∀ ⦃w : Workspace⦄ ⦃n : Nat⦄ ⦃e : CompileError⦄, Fails x w n e → ¬ e.ReportsMissing

namespace Quiet

protected lemma pure (a : α) : Quiet (pure a : Compile α) := fun _ _ _ h => (fails_pure h).elim

protected lemma throw (he : ¬ e.ReportsMissing) : Quiet (throw e : Compile α) := fun _ _ _ h =>
  fails_throw.1 h ▸ he

variable {f : α → Compile β}

protected lemma bind (hx : Quiet x) (hf : ∀ a, Quiet (f a)) : Quiet (x >>= f) := by
  intro w n e h
  rcases fails_bind.1 h with h | ⟨a, w₁, k, -, h⟩
  · exact hx h
  · exact hf a h

protected lemma lift (x : Eval α) : Quiet (liftM x : Compile α) := fun _ _ _ h =>
  (fails_lift h).elim

protected lemma attempt {x : Attempt α} (hx : x.Quiet) : Quiet (attempt x) := fun _ _ _ h => by
  obtain ⟨m, h⟩ := fails_attempt.1 h
  exact hx h

protected lemma checked (hreport : ∀ e, ¬ (report e).ReportsMissing) (x : Check α) :
    Quiet (checked report x) :=
  .attempt (.adapt hreport x)

protected lemma resolved (x : Surface.Resolve α) : Quiet (resolved x) := fun _ _ _ h => by
  obtain ⟨error, rfl⟩ := fails_resolved h
  cases error <;> exact id

protected lemma get_bind {f : Workspace → Compile β} (hf : ∀ w, Quiet (f w)) :
    Quiet (get >>= f) := fun w _ _ h => hf w h

protected lemma set_bind {w' : Workspace} {f : PUnit → Compile β} (hf : Quiet (f ⟨⟩)) :
    Quiet (set w' >>= f) := fun _ _ _ h => hf h

protected lemma modify_bind {f : PUnit → Compile β}
    (hf : Quiet (f ⟨⟩)) : Quiet (modify g >>= f) := fun _ _ _ h => hf h

protected lemma modify (g : Workspace → Workspace) : Quiet (modify g : Compile PUnit) :=
  fun _ _ _ h => (fails_pure h).elim

lemma claim (span : Span) (name : Name) : Quiet (claim span name) := by
  unfold Compile.claim
  refine .get_bind fun w => ?_
  split
  · exact fun _ _ _ h => (fails_pure h).elim
  · exact .throw id

lemma checkForced (job : Job) (Γ : Telescope) (locals : Surface.Locals) (forced : List Forced) :
    Quiet (checkForced job Γ locals forced) := by
  induction forced with
  | nil => exact .pure _
  | cons f fs ih =>
    rw [Compile.checkForced]
    refine .get_bind fun _ => .bind (.resolved _) fun _ => ?_
    refine .get_bind fun _ => .bind (.lift _) fun b => ?_
    split
    · exact ih
    · exact .throw id

lemma declareAuxiliaries (job : Job) (Γ : Telescope) (ds : List Surface.Definition)
    (locals : Surface.Locals) : Quiet (declareAuxiliaries job Γ ds locals) := by
  induction ds generalizing locals with
  | nil => exact .pure _
  | cons d ds ih =>
    rw [Compile.declareAuxiliaries]
    refine .bind (.get_bind fun _ => .set_bind (.pure _)) fun _ => ?_
    refine .get_bind fun _ => .bind (.resolved _) fun _ => ?_
    refine .get_bind fun _ => .bind (.checked (fun _ => id) _) fun _ => ?_
    exact .modify_bind (.bind (ih _) fun _ => .pure _)

lemma reportRedundant (job : Job) (rows : List Row) (reached : List Nat) :
    Quiet (reportRedundant job rows reached) := by
  unfold Compile.reportRedundant
  induction rows.zipIdx with
  | nil => exact .pure _
  | cons entry entries ih =>
    change Quiet (_ >>= fun _ => entries.forM _)
    refine .bind ?_ fun _ => ih
    dsimp only
    split
    · exact .pure _
    · split
      · exact .modify _
      · exact .throw id

lemma finish (job : Job) (p : FunctionProblem) (Γ : Telescope) (tree : SplitTree) :
    Quiet (finish job p Γ tree) := by
  unfold Compile.finish
  refine .get_bind fun _ => .bind (.checked (fun _ => id) _) fun _ => .modify_bind ?_
  refine .get_bind fun _ => .bind (.attempt (Equation.generate_quiet _ _ _)) fun _ => ?_
  refine .get_bind fun _ => .bind (.attempt (Elimination.derive_quiet _ _ _ _)) fun _ => ?_
  exact .modify_bind (.modify_bind (.pure _))

lemma matrix (sig : Signature) (arity : Nat) (clauses : List Surface.Clause) :
    Quiet (attempt (ExceptT.mk (pure (sig.matrix arity clauses)))) :=
  .attempt fun _ _ _ h => Signature.rows_quiet arity [] clauses (returns_pure.1 h).1

/-- If something is missing after a quiet step, then because of what follows it. -/
lemma fails_bind (hx : Quiet x) (he : e.ReportsMissing) (h : Fails (x >>= f) w n e) :
    ∃ a w₁ k, Yields x w n a w₁ k ∧ Fails (f a) w₁ k e :=
  (Compile.fails_bind.1 h).resolve_left fun h => hx h he

end Quiet

lemma fails_checked_bind (hreport : ∀ e, ¬ (report e).ReportsMissing) (he : e.ReportsMissing)
    (h : Fails (checked report x >>= f) w n e) :
    ∃ a k, Eval.Yields x n a k ∧ Fails (f a) w k e := by
  obtain ⟨a, w₁, k, hyields, h⟩ := (Quiet.checked hreport x).fails_bind he h
  obtain ⟨hx, rfl⟩ := yields_checked.1 hyields
  exact ⟨a, k, hx, h⟩

lemma fails_resolved_bind (he : e.ReportsMissing) (h : Fails (resolved x >>= f) w n e) :
    ∃ a k, Fresh.Yields x n a k ∧ Fails (f a) w k e := by
  obtain ⟨a, w₁, k, hyields, h⟩ := (Quiet.resolved x).fails_bind he h
  obtain ⟨hx, rfl⟩ := yields_resolved.1 hyields
  exact ⟨a, k, hx, h⟩

/-! ### Where something is missing -/

section Splitting

/-- Splitting comes to a problem for which no row is left, and reports its arguments. -/
def Misses (target : SplitTarget) (settle : ReachedRow → Compile SplitTree) (p : Problem)
    (rows : List (Nat × Row)) (w : Workspace) (n : Nat) (e : CompileError) : Prop :=
  ∃ depth q others w₁ i k, Visits target settle p rows w n depth (.problem q others) w₁ i ∧
    Returns (w₁.env.decideRows q others) i .exhausted k ∧
    e = .nonExhaustive target.span target.name q.context q.args

/-- Splitting reaches a row that cannot be settled. -/
def Strands (target : SplitTarget) (settle : ReachedRow → Compile SplitTree) (p : Problem)
    (rows : List (Nat × Row)) (w : Workspace) (n : Nat) (e : CompileError) : Prop :=
  ∃ depth q others w₁ i k index row locals forced,
    Visits target settle p rows w n depth (.problem q others) w₁ i ∧
    Returns (w₁.env.decideRows q others) i (.reached index row locals forced) k ∧
    Fails (settle { index, row, problem := q, locals, forced }) w₁ k e

mutual

/-- If splitting finds something missing, then in a problem that it comes to. -/
lemma Visits.fails (he : e.ReportsMissing) : (fuel : Nat) → ∀ {depth q others w₁ i},
    Visits target settle p rows w n depth (.problem q others) w₁ i →
    Fails (split target settle fuel q others) w₁ i e → Misses target settle p rows w n e ∨
    Strands target settle p rows w n e
  | 0, _, _, _, _, _, _, h => (fails_outOfFuel h).elim
  | fuel + 1, depth, q, others, w₁, i, hvisits, h => by
    rw [split, fails_env_bind, fails_lift_bind] at h
    obtain ⟨decision, k, hdecide, h⟩ := h
    cases decision with
    | reached index row locals forced =>
      rcases fails_bind.1 h with h | ⟨_, _, _, -, h⟩
      · exact .inr ⟨depth, q, others, w₁, i, k, index, row, locals, forced, hvisits, hdecide, h⟩
      · exact (fails_pure h).elim
    | failed error =>
      obtain rfl := fails_throw.1 h
      exact (Env.decideRows_failed hdecide he).elim
    | exhausted =>
      obtain ⟨found, l, -, h⟩ := fails_lift_bind.1 (fails_env_bind.1 h)
      cases found with
      | some v => exact (fails_pure h).elim
      | none =>
        exact .inl ⟨depth, q, others, w₁, i, k, hvisits, hdecide, (fails_throw.1 h).symm⟩
    | split v pattern later =>
      obtain ⟨rs, l, hrefine, h⟩ := fails_checked_bind (fun _ => id) he (fails_env_bind.1 h)
      cases rs with
      | nil => exact (fails_pure h).elim
      | cons r rs =>
        rcases fails_bind.1 h with h | ⟨_, _, _, -, h⟩
        · exact Visits.branches_fail he fuel (.enter hvisits hdecide hrefine) h
        · exact (fails_pure h).elim

lemma Visits.branches_fail (he : e.ReportsMissing) : (fuel : Nat) → ∀ {depth q others rs w₁ i},
    Visits target settle p rows w n depth (.branches q others rs) w₁ i →
    Fails (splitBranches target settle fuel q others rs) w₁ i e →
    Misses target settle p rows w n e ∨ Strands target settle p rows w n e
  | 0, _, _, _, _, _, _, _, h => (fails_outOfFuel h).elim
  | _ + 1, _, _, _, [], _, _, _, h => (fails_pure h).elim
  | fuel + 1, depth, q, others, r :: rs, w₁, i, hvisits, h => by
    rw [splitBranches, fails_fresh_bind] at h
    rcases fails_bind.1 h with h | ⟨result, w₂, j, hsplit, h⟩
    · exact Visits.fails he fuel (.branch hvisits) h
    rcases fails_bind.1 h with h | ⟨_, _, _, -, h⟩
    · exact Visits.branches_fail he fuel (.next hvisits hsplit) h
    · exact (fails_pure h).elim

end

end Splitting

/-! ### Functions in which something is missing -/

/-- The call compiles a function, and splitting its rows reports the error. -/
def Call.Reports (job : Job) (c : Call) (e : CompileError) : Prop :=
  ∃ q fuel claimed, c.task = .function q ∧ c.fuel = fuel + 1 ∧ Claims job q c.workspace claimed ∧
    Misses q.target (leaf job fuel) q.problem q.numbered (opening q claimed) c.supply e

/-- In the course of the call a function is compiled that the error is reported for. -/
def Call.Finds (job : Job) (c : Call) (e : CompileError) : Prop :=
  ∃ c', Reaches job c c' ∧ c'.Reports job e

lemma Call.Finds.of_calls (hcalls : Calls job c c') (h : c'.Finds job e) : c.Finds job e :=
  h.imp fun _ h => ⟨.head hcalls h.1, h.2⟩

variable (he : e.ReportsMissing)

include he

mutual

/-- An error found while compiling was reported in some call of the course. -/
lemma function_finds : (fuel : Nat) → ∀ {p w n},
    Fails (function job fuel p) w n e → Call.Finds job ⟨.function p, fuel, w, n⟩ e
  | 0, _, _, _, h => (fails_outOfFuel h).elim
  | fuel + 1, p, w, n, h => by
    -- Claiming the name reports nothing missing, so what follows it does.
    have hrest : ∃ w₁, Claims job p w w₁ ∧ Fails (do
        addFunction { name := p.name, type := p.type }
        let split ← splitRows p.target (leaf job fuel) fuel p.problem
        reportRedundant job p.rows split.2
        finish job p p.params split.1) w₁ n e := by
      rw [function] at h
      split at h
      · next hname =>
          obtain ⟨_, w₁, _, hclaim, h⟩ := (Quiet.claim _ _).fails_bind he h
          obtain ⟨⟨base, hbase, rfl⟩, rfl⟩ := yields_claim.1 hclaim
          exact ⟨_, .inr ⟨by simpa using hname, base, hbase, rfl⟩, h⟩
      · next hname => exact ⟨w, .inl ⟨by simpa using hname, rfl⟩, h⟩
    obtain ⟨claimed, hclaims, h⟩ := hrest
    rcases fails_bind.1 (fails_addFunction_bind.1 h) with h | ⟨split, w₂, k, -, h⟩
    · rcases Visits.fails he fuel .start h with hmisses | hstrands
      · exact ⟨_, .refl, p, fuel, claimed, rfl, rfl, hclaims, hmisses⟩
      · obtain ⟨depth, q, others, w₁, i, k, index, row, locals, forced, hvisits, hdecide, h⟩ :=
          hstrands
        exact (leaf_finds fuel h).of_calls (.leaf hclaims hvisits hdecide)
    · obtain ⟨_, w₃, l, -, h⟩ := (Quiet.reportRedundant _ _ _).fails_bind he h
      exact (Quiet.finish _ _ _ _ h he).elim

lemma leaf_finds : (fuel : Nat) → ∀ {r w n},
    Fails (leaf job fuel r) w n e → Call.Finds job ⟨.leaf r, fuel, w, n⟩ e
  | 0, _, _, _, h => (fails_outOfFuel h).elim
  | fuel + 1, r, w, n, h => by
    rw [leaf] at h
    split at h
    · obtain ⟨found, l, -, h⟩ := fails_lift_bind.1 (fails_env_bind.1 h)
      split at h
      · exact (fails_pure h).elim
      · rw [← fails_throw.1 h] at he
        exact he.elim
    · next body hrhs =>
        obtain ⟨_, w₁, k, hforced, h⟩ := (Quiet.checkForced _ _ _ _).fails_bind he h
        obtain rfl := checkForced_yields hforced
        rcases fails_bind.1 h with h | ⟨locals, w₂, l, -, h⟩
        · exact (auxiliaries_finds fuel h).of_calls (.auxiliaries (by simp [hrhs]) hforced)
        · obtain ⟨t, j, -, h⟩ := fails_resolved_bind he (fails_scope_bind.1 h)
          obtain ⟨_, _, -, h⟩ := fails_checked_bind (fun _ => id) he (fails_env_bind.1 h)
          exact (fails_pure h).elim
    · next scrut equation rows hrhs =>
        obtain ⟨_, w₁, k, hforced, h⟩ := (Quiet.checkForced _ _ _ _).fails_bind he h
        obtain rfl := checkForced_yields hforced
        rcases fails_bind.1 h with h | ⟨locals, w₂, l, haux, h⟩
        · exact (auxiliaries_finds fuel h).of_calls (.auxiliaries (by simp [hrhs]) hforced)
        rcases fails_bind.1 h with h | ⟨result, w₃, j, -, h⟩
        · exact (inspection_finds fuel h).of_calls (.inspection hrhs hforced haux)
        · exact (fails_pure h).elim

lemma auxiliaries_finds : (fuel : Nat) → ∀ {Γ ds locals w n},
    Fails (auxiliaries job fuel Γ ds locals) w n e →
    Call.Finds job ⟨.auxiliaries Γ ds locals, fuel, w, n⟩ e
  | 0, _, _, _, _, _, h => (fails_outOfFuel h).elim
  | fuel + 1, Γ, ds, locals, w, n, h => by
    rw [auxiliaries] at h
    obtain ⟨⟨declared, locals'⟩, w₁, k, hdeclare, h⟩ :=
      (Quiet.declareAuxiliaries _ _ _ _).fails_bind he h
    rcases fails_bind.1 h with h | ⟨_, _, _, -, h⟩
    · exact (compileAuxiliaries_finds fuel h).of_calls (.declared hdeclare)
    · exact (fails_pure h).elim

lemma compileAuxiliaries_finds : (fuel : Nat) → ∀ {Γ locals declared w n},
    Fails (compileAuxiliaries job fuel Γ locals declared) w n e →
    Call.Finds job ⟨.compileAuxiliaries Γ locals declared, fuel, w, n⟩ e
  | 0, _, _, _, _, _, h => (fails_outOfFuel h).elim
  | _ + 1, _, _, [], _, _, h => (fails_pure h).elim
  | fuel + 1, Γ, locals, a :: others, w, n, h => by
    rw [compileAuxiliaries, fails_get_bind] at h
    obtain ⟨rows, w₁, k, hmatrix, h⟩ := (Quiet.matrix _ _ _).fails_bind he h
    obtain ⟨hread, rfl⟩ := yields_attempt.1 hmatrix
    obtain ⟨hrows, rfl⟩ := returns_pure.1 hread
    rcases fails_bind.1 h with h | ⟨f, w₂, l, hfunction, h⟩
    · exact (function_finds fuel h).of_calls (.first hrows)
    · exact (compileAuxiliaries_finds fuel (fails_addAuxiliary_bind.1 h)).of_calls
        (.others hrows hfunction)

lemma inspection_finds : (fuel : Nat) →
    ∀ {p locals span scrut equation rows w n},
    Fails (inspection job fuel p locals span scrut equation rows) w n e →
    Call.Finds job ⟨.inspection p locals span scrut equation rows, fuel, w, n⟩ e
  | 0, _, _, _, _, _, _, _, _, h => (fails_outOfFuel h).elim
  | fuel + 1, p, locals, span, scrut, equation, rows, w, n, h => by
    rw [inspection, fails_scope_bind] at h
    obtain ⟨term, k, hterm, h⟩ := fails_resolved_bind he h
    obtain ⟨type, l, htype, h⟩ := fails_checked_bind (fun _ => id) he (fails_env_bind.1 h)
    rw [fails_fresh_bind, fails_fresh_bind, fails_env_bind] at h
    obtain ⟨_, j, hcheck, h⟩ := fails_checked_bind (fun _ => id) he h
    rw [fails_inspectionName_bind] at h
    -- What has been read and checked poses the function of the inspection.
    let node : Inspection :=
      { function := Name.qualify job.root s!"with{w.inspections + 1}", scrut := term,
        scrutType := type, scrutVar := ⟨l, "w"⟩,
        equationVar := ⟨l + 1, (equation.map (·.name)).getD "h"⟩,
        call := (Term.global (Name.qualify job.root s!"with{w.inspections + 1}")).apps
          (Telescope.args p.context ++ [term, .refl type term]) }
    let i : Poses job p locals span scrut equation rows w n node :=
      ⟨k, hterm, l, htype, rfl, rfl, _, rfl, _, rfl, j, hcheck, rfl, rfl, _, rfl⟩
    have hfunction : Fails (function job fuel i.problem)
        { w with inspections := w.inspections + 1 } j e := by
      rcases fails_bind.1 h with h | ⟨f, w₁, o, -, h⟩
      · cases equation <;> exact h
      · obtain ⟨_, _, -, h⟩ := fails_checked_bind (fun _ => id) he (fails_env_bind.1 h)
        rw [fails_addAuxiliary_bind] at h
        exact (fails_pure h).elim
    exact (function_finds fuel hfunction).of_calls (.posed i)

end

end Compile

lemma FunctionProblem.numbered_of_row_mem {p : FunctionProblem} (h : row ∈ p.rows) :
    ∃ index, (index, row) ∈ p.numbered := by
  obtain ⟨index, hindex, rfl⟩ := List.getElem_of_mem h
  exact ⟨index, List.mem_map.2
    ⟨(p.rows[index], index), List.mem_zipIdx_iff_getElem?.2 (by simp), rfl⟩⟩

namespace Compile

/-- No row matches what becomes of the arguments of a problem for which no row is left. -/
lemma Visits.uncovered (hsettle : Grows root settle) (hsig : w.sig.SplitFree n)
    (hclosed : w.sig.Closed) (hp : p.SplitFree n) (hrelies : Relies target settle p rows w n)
    (hvisits : Visits target settle p rows w n depth (.problem q others) w₁ i)
    (hdecide : Returns (w₁.env.decideRows q others) i .exhausted k) (hclosed₁ : w₁.env.Closed) :
    ∀ entry ∈ rows, ∀ s : Filling, ¬ patternsMatch (w₁.env.rules hclosed₁) entry.2.patterns
      ((q.args.map (Term.nameless [])).map (Nameless.fill s)) := by
  have hspent := hvisits.spent hsettle hsig hclosed hp hrelies hclosed₁
  obtain ⟨dropped, hrows, hdropped⟩ := hspent.dropped
  have hq : q.SplitFree i := (hvisits.extends hsettle hsig hp).2
  have hknows : ∀ entry ∈ others, w₁.env.Knows entry.2.ctors := fun entry hentry =>
    (hrelies.preserves hvisits).knows (hrelies.knows entry (hvisits.suffix.subset hentry))
  obtain ⟨skipped, rest, hothers, hskipped, hrest, -⟩ :=
    Env.decideRows_skips hclosed₁ hknows hq.args_below hdecide
  rw [hrest rfl, List.append_nil] at hothers
  intro entry hentry s
  -- A row was dropped above the problem or passed over in it; it clashes in both cases.
  have hclash : patternsClash (w₁.env.rules hclosed₁) entry.2.patterns
      (q.args.map (Term.nameless [])) := by
    rw [hrows] at hentry
    exact (List.mem_append.1 hentry).elim (hdropped entry)
      fun hmem => hskipped entry (hothers ▸ hmem)
  exact patternsClash_not_match entry.2.patterns
    (patternsClash_carry (.refl _) s entry.2.patterns hclash)

end Compile

/-! ### Definitions -/

/-- A definition for which something is missing: its clauses were read, and in the course of the
compilation the rows of a function were split that do not cover its arguments. -/
lemma compile_finds (he : e.ReportsMissing)
    (h : Returns (compile base sig decl options) n (.error e, base') m) :
    ∃ claimed names rows, base.claim decl.name = .ok claimed ∧
      Surface.auxiliaryNames decl.clauses = .ok names ∧
      sig.matrix (Telescope.ofType decl.type).1.length decl.clauses = .ok rows ∧
      (decl.call rows { sig, base := claimed, held := [decl.name] } n).Finds
        (decl.job names options) e := by
  unfold compile at h
  split at h
  · obtain ⟨heq, -⟩ := returns_pure.1 h
    cases (Prod.mk.inj heq).1
    exact he.elim
  · next claimed hclaimed =>
      obtain ⟨⟨result, w⟩, k, hrun, h⟩ := returns_bind.1 h
      obtain ⟨heq, rfl⟩ := returns_pure.1 h
      obtain rfl : result = .error e := (Prod.mk.inj heq).1
      have hfails : Compile.Fails (Compile.definition decl options)
          { sig, base := claimed, held := [decl.name] } n e := ⟨w, k, hrun⟩
      rw [Compile.definition, Compile.fails_get_bind] at hfails
      have hquiet : Compile.Quiet (Compile.attempt (ExceptT.mk (pure
          (Surface.auxiliaryNames decl.clauses)))) :=
        .attempt fun _ _ _ h => Surface.auxiliaryNames_quiet _ (returns_pure.1 h).1
      obtain ⟨names, _, _, hattempt, hfails⟩ := hquiet.fails_bind he hfails
      obtain ⟨hyields, rfl⟩ := Compile.yields_attempt.1 hattempt
      obtain ⟨hnames, rfl⟩ := returns_pure.1 hyields
      obtain ⟨rows, _, _, hattempt, hfails⟩ := (Compile.Quiet.matrix _ _ _).fails_bind he hfails
      obtain ⟨hyields, rfl⟩ := Compile.yields_attempt.1 hattempt
      obtain ⟨hrows, rfl⟩ := returns_pure.1 hyields
      rcases Compile.fails_bind.1 hfails with hfails | ⟨f, w₁, l, -, hfails⟩
      · exact ⟨claimed, names, rows, hclaimed, hnames, hrows, Compile.function_finds he _ hfails⟩
      · rw [Compile.fails_get_bind] at hfails
        exact (Compile.fails_pure hfails).elim

/-- Where the compilation of a definition comes to arguments that no row is left for. -/
structure Shortfall (base : RuleBase) (sig : Signature) (decl : Declaration)
    (options : CompileOptions) (n : Nat) (e : CompileError) where
  claimed : RuleBase
  claim_eq : base.claim decl.name = .ok claimed
  names : List Name
  names_eq : Surface.auxiliaryNames decl.clauses = .ok names
  rows : List Row
  rows_eq : sig.matrix (Telescope.ofType decl.type).1.length decl.clauses = .ok rows
  /-- The call that compiles the function whose arguments these are. -/
  call : Compile.Call
  reaches : Compile.Reaches (decl.job names options)
    (decl.call rows { sig, base := claimed, held := [decl.name] } n) call
  function : FunctionProblem
  task_eq : call.task = .function function
  fuel : Nat
  fuel_eq : call.fuel = fuel + 1
  opened : Workspace
  claims : Compile.Claims (decl.job names options) function call.workspace opened
  /-- The problem that splitting comes to, and the workspace and the supply there. -/
  problem : Problem
  others : List (Nat × Row)
  workspace : Workspace
  supply : Nat
  depth : Nat
  visits : Compile.Visits function.target (Compile.leaf (decl.job names options) fuel)
    function.problem function.numbered (Compile.opening function opened) call.supply depth
    (.problem problem others) workspace supply
  decidedSupply : Nat
  exhausted : Returns (workspace.env.decideRows problem others) supply .exhausted decidedSupply
  error_eq : e = .nonExhaustive function.span function.name problem.context problem.args

/-- Missing arguments are missing.  Where they are reported, no row of the function matches them,
whatever their variables are replaced by. -/
theorem compile_missing_uncovered {base base' : RuleBase} {sig : Signature} {decl : Declaration}
    {options : CompileOptions} {n m : Nat} {span : Span} {name : Name} {Γ : Telescope}
    {missing : List Term} (hsig : sig.Formed n) (htype : decl.type.SplitFree n)
    (hspares : ∀ names, Surface.auxiliaryNames decl.clauses = .ok names →
      (decl.job names options).Spares sig)
    (h : Returns (compile base sig decl options) n
      (.error (.nonExhaustive span name Γ missing), base') m) :
    ∃ (s : Shortfall base sig decl options n (.nonExhaustive span name Γ missing))
      (hclosed : s.workspace.env.Closed), ∀ row ∈ s.function.rows, ∀ F : Filling,
        ¬ patternsMatch (s.workspace.env.rules hclosed) row.patterns
          (missing.map fun t => (t.nameless []).fill F) := by
  obtain ⟨claimed, names, rows, hclaim, hnames, hrows, c, hreaches, q, fuel, w, htask, hfuel,
    hclaims, depth, p, others, w₁, i, k, hvisits, hdecide, herror⟩ :=
      compile_finds (e := .nonExhaustive span name Γ missing) trivial h
  obtain ⟨hopening, hproblem, hrelies⟩ := Declaration.opening_relies
    { sig, base := claimed, held := [decl.name] } hsig.splitFree htype hnames hrows
    (hspares names hnames) hreaches htask hclaims fuel
  have hgrows := Compile.leaf_grows (decl.job names options) fuel
  have hopen := hopening.splitFree hsig.splitFree
  have hclosed := hopening.closed hsig.closed
  have hclosed₁ := (hvisits.extends hgrows hopen hproblem).1.closed hclosed
  refine ⟨⟨claimed, hclaim, names, hnames, rows, hrows, c, hreaches, q, htask, fuel, hfuel, w,
    hclaims, p, others, w₁, i, depth, hvisits, k, hdecide, herror⟩, hclosed₁.body,
    fun row hrow F => ?_⟩
  obtain ⟨index, hentry⟩ := FunctionProblem.numbered_of_row_mem hrow
  have huncovered := hvisits.uncovered hgrows hopen hclosed hproblem hrelies hdecide hclosed₁.body
    (index, row) hentry F
  obtain ⟨-, -, -, rfl⟩ := CompileError.nonExhaustive.inj herror
  rwa [List.map_map] at huncovered

namespace Missing

/-- What a compilation reports as missing. -/
def missing? (r : Option ((Except CompileError CompiledDefinition × RuleBase) × Nat)) :
    Option (Span × Name × Telescope × List Term) :=
  match r with
  | some ((.error (.nonExhaustive span name Γ missing), _), _) => some (span, name, Γ, missing)
  | _ => none

lemma returns_of_missing? (h : missing? (x n) = some (span, name, Γ, missing)) :
    ∃ base m, Returns x n (.error (.nonExhaustive span name Γ missing), base) m := by
  unfold missing? at h
  split at h
  · next base m hx =>
      obtain ⟨rfl, rfl, rfl, rfl⟩ := Prod.mk.inj (Option.some.inj h)
      exact ⟨base, m, hx⟩
  · cases h

/-- The first two clauses of the definition, which say nothing about one. -/
def partly : Declaration :=
  { SplitDepth.twoLess with clauses := SplitDepth.twoLess.clauses.take 2 }

/-- One is reported, and no row matches it. -/
theorem partly_missing_uncovered : ∃ e n span Γ missing base m,
    Returns (elaborate {} [.family Overlap.nat] {}) 0 e n ∧
      Returns (compile {} (SplitDepth.declared e) partly {}) n
        (.error (.nonExhaustive span "f" Γ missing), base) m ∧
      missing.map (Term.nameless []) = [.app (.global "succ") (.global "zero")] ∧
      ∃ (s : Shortfall {} (SplitDepth.declared e) partly {} n (.nonExhaustive span "f" Γ missing))
        (hclosed : s.workspace.env.Closed), ∀ row ∈ s.function.rows, ∀ F : Filling,
          ¬ patternsMatch (s.workspace.env.rules hclosed) row.patterns
            (missing.map fun t => (t.nameless []).fill F) := by
  have hmodule : ((elaborate {} [.family Overlap.nat] {} 0).bind fun r =>
      (missing? (compile {} (SplitDepth.declared r.1) partly {} r.2)).map fun report =>
        decide (0 < r.2) && SplitDepth.plainly r.1.sig && report.2.1 == "f" &&
          report.2.2.2.map (Term.nameless []) == [.app (.global "succ") (.global "zero")]) =
      some true := by decide +kernel
  obtain ⟨⟨e, n⟩, he, hmodule⟩ := bind_eq_some_iff.1 hmodule
  obtain ⟨⟨span, name, Γ, missing⟩, hmissing, hfacts⟩ := map_eq_some_iff.1 hmodule
  simp only [Bool.and_eq_true, decide_eq_true_eq, beq_iff_eq, SplitDepth.plainly,
    isNone_iff_eq_none, List.all_eq_true] at hfacts
  obtain ⟨⟨⟨hn, hlists, hplain⟩, rfl⟩, hone⟩ := hfacts
  obtain ⟨base, m, hcompile⟩ := returns_of_missing? hmissing
  have hsig : (SplitDepth.declared e).Formed n :=
    (elaborate_formed he).declare _ ⟨hn, trivial, trivial⟩
  have hspares : ∀ names, Surface.auxiliaryNames partly.clauses = .ok names →
      (partly.job names {}).Spares (SplitDepth.declared e) := by
    intro names hnames
    have hnamed : Surface.auxiliaryNames partly.clauses = .ok ["g"] := rfl
    obtain rfl := Except.ok.inj (hnamed.symm.trans hnames)
    exact SplitDepth.twoLess_spares hplain hlists
  exact ⟨e, n, span, Γ, missing, base, m, he, hcompile, hone,
    compile_missing_uncovered hsig ⟨hn, trivial, trivial⟩ hspares hcompile⟩

/-! If a local definition replaces a constructor, a clause for the constructor covers nothing. -/

/-- Two kinds of data, one under the name that the local definition will have. -/
def kinds : Surface.Family where
  span := default
  name := ⟨default, "D"⟩
  params := []
  type := .univ default
  ctors := [⟨⟨default, "base"⟩, .name default "D"⟩,
    ⟨⟨default, "f.g"⟩, .arrow default (.name default "N") (.name default "D")⟩]

def replacing : Declaration where
  name := "f"
  span := default
  type := .pi ⟨0, "d"⟩ (.global "D") (.global "N")
  transparent := true
  clauses :=
    [.mk default [.ctor default ⟨default, "f.g"⟩ [.name default "x"]]
        (.term (.name default "x")) [],
      .mk default [.name default "base"] (.term (.name default "zero"))
        [SplitDepth.helper [.mk default [.name default "k"] (.term (.name default "k")) []]]]

/-- Both kinds, and the declared type. -/
def declared (e : Elaboration) : Signature :=
  e.sig.addFunction { name := replacing.name, type := replacing.type }

/-- The row asks for the constructor, and for nothing in it. -/
def asksFor (c : Name) (row : Row) : Bool :=
  match row.patterns with
  | [.ctor _ c' [.var _ _]] => c' == c
  | _ => false

lemma matches_of_asksFor (h : asksFor c row = true) (hc : R.ctor c = some k)
    (arg : Nameless) : patternsMatch R row.patterns [.app (.global c) arg] := by
  unfold asksFor at h
  split at h
  · next span c' span' x hpatterns =>
      obtain rfl := beq_iff_eq.1 h
      rw [hpatterns]
      refine ⟨⟨[arg].drop k.2, ⟨k, [arg], hc, .refl, rfl⟩, ?_⟩, trivial⟩
      cases [arg].drop k.2 with
      | nil => trivial
      | cons => exact ⟨trivial, trivial⟩
  · cases h

/-- The clause for the constructor is taken to cover nothing once the local definition of the
other clause has replaced the constructor. -/
theorem replacing_misses_covered : ∃ e n span Γ missing base m rows,
    ∃ (row : Row) (hclosed : ({ sig := declared e } : Env).Closed),
      Returns (elaborate {} [.family Overlap.nat, .family kinds] {}) 0 e n ∧
      Returns (compile {} (declared e) replacing {}) n
        (.error (.nonExhaustive span "f" Γ missing), base) m ∧
      (declared e).matrix 1 replacing.clauses = .ok rows ∧ row ∈ rows ∧
      patternsMatch (({ sig := declared e } : Env).rules hclosed) row.patterns
        (missing.map (Term.nameless [])) := by
  have hmodule : ((elaborate {} [.family Overlap.nat, .family kinds] {} 0).bind fun r =>
      (missing? (compile {} (declared r.1) replacing {} r.2)).bind fun report =>
        ((declared r.1).matrix 1 replacing.clauses).toOption.map fun rows =>
          decide (0 < r.2) && report.2.1 == "f" && rows.any (asksFor "f.g") &&
            ((declared r.1).ctor? "f.g").isSome && report.2.2.2.map (Term.nameless []) ==
              [.app (.global "f.g") (.global "zero")]) = some true := by decide +kernel
  obtain ⟨⟨e, n⟩, he, hmodule⟩ := bind_eq_some_iff.1 hmodule
  obtain ⟨⟨span, name, Γ, missing⟩, hmissing, hmodule⟩ := bind_eq_some_iff.1 hmodule
  obtain ⟨rows, hrows, hfacts⟩ := map_eq_some_iff.1 hmodule
  simp only [Bool.and_eq_true, decide_eq_true_eq, beq_iff_eq, List.any_eq_true] at hfacts
  obtain ⟨⟨⟨⟨hn, rfl⟩, row, hrow, hasks⟩, hsome⟩, hone⟩ := hfacts
  obtain ⟨base, m, hcompile⟩ := returns_of_missing? hmissing
  obtain ⟨k, hk⟩ := isSome_iff_exists.1 hsome
  have hsig : (declared e).Formed n := (elaborate_formed he).declare _ ⟨hn, trivial, trivial⟩
  refine ⟨e, n, span, Γ, missing, base, m, rows, row, hsig.closed.body, he, hcompile, ?_, hrow, ?_⟩
  · exact eq_ok_of_toOption hrows
  · rw [hone]
    exact matches_of_asksFor hasks (k := (k.name, k.numParams)) (map_eq_some_iff.2 ⟨k, hk, rfl⟩) _

end Missing

end Clausal
