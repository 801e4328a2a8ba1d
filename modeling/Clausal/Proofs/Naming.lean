import Clausal.Proofs.Compilation
import Clausal.Proofs.Matrix

/-!
# Names of compiled functions

Every auxiliary is compiled under a name that was claimed for it, so the names that a
compilation holds are those of the functions that it has compiled.
-/

namespace Clausal

open Eval Except List Surface

variable {f : CompiledFunction}

/-! ### Local definitions in rows -/

mutual

/-- The local definitions of a row at any depth. -/
def Row.auxiliaryIdents : Row → List Ident
  | .mk _ _ rhs auxiliaries => definitionsIdents auxiliaries ++ rhs.auxiliaryIdents

def RowRhs.auxiliaryIdents : RowRhs → List Ident
  | .term _ => []
  | .inspect _ _ rows => rowsIdents rows
  | .absurd _ => []

def rowsIdents : List Row → List Ident
  | [] => []
  | r :: rs => r.auxiliaryIdents ++ rowsIdents rs

end

lemma mem_rowsIdents : ident ∈ rowsIdents rows ↔ ∃ row ∈ rows, ident ∈ row.auxiliaryIdents := by
  induction rows with
  | nil => simp [rowsIdents]
  | cons row rows ih => simp [rowsIdents, ih]

@[simp] lemma Row.auxiliaryIdents_pad (row : Row) (before after : Nat) :
    (row.pad before after).auxiliaryIdents = row.auxiliaryIdents := by
  cases row
  rfl

lemma rowsIdents_pad (rows : List Row) (before after : Nat) :
    rowsIdents (rows.map (·.pad before after)) = rowsIdents rows := by
  induction rows with
  | nil => rfl
  | cons row rows ih => rw [map_cons, rowsIdents, rowsIdents, ih, Row.auxiliaryIdents_pad]

lemma Row.auxiliaryIdents_eq (row : Row) : row.auxiliaryIdents =
    definitionsIdents row.auxiliaries ++ row.rhs.auxiliaryIdents := by
  cases row
  rfl

lemma rowsIdents_of_forall₂
    (h : Forall₂ (fun c row => Row.auxiliaryIdents row = c.auxiliaryIdents) cs rs) :
    rowsIdents rs = clausesIdents cs := by
  induction h with
  | nil => rfl
  | cons hfirst _ ih => rw [rowsIdents, clausesIdents, hfirst, ih]

namespace Signature

variable {sig : Signature}

lemma idents_rowsBy : sig.RowsBy fun _ _ c row => row.auxiliaryIdents = c.auxiliaryIdents := by
  intro arity inherited ps qs rhs rhs' span auxiliaries _ _ _ hrhs
  cases hrhs with
  | term | absurd => rfl
  | inspect scrut hall =>
    exact congrArg (definitionsIdents auxiliaries ++ ·) (rowsIdents_of_forall₂ hall)

lemma rows_idents (h : sig.rows arity inherited cs = .ok rs) :
    rowsIdents rs = clausesIdents cs :=
  rowsIdents_of_forall₂ (idents_rowsBy.rows cs h)

end Signature

lemma Surface.auxiliaryNames_eq (h : auxiliaryNames clauses = .ok names) :
    names = (clausesIdents clauses).map (·.name) := by
  unfold auxiliaryNames at h
  dsimp only at h
  split at h
  · cases h
  · exact (ok.inj h).symm

/-! ### Generated names -/

lemma Name.qualify_ne (name : Name) (suffix : String) : Name.qualify name suffix ≠ name := by
  intro h
  have hlength := congrArg String.length h
  simp only [Name.qualify, String.length_append] at hlength
  have hdot : ".".length = 1 := rfl
  omega

/-- A name that the auxiliaries of a definition are compiled under. -/
inductive Job.Generates (job : Job) : Name → Prop
  | lifted {name : Name} : name ∈ job.auxiliaries → Generates job (Name.qualify job.root name)
  | copy {name : Name} (number : Nat) : name ∈ job.auxiliaries →
      Generates job (Name.qualify (Name.qualify job.root name) (toString number))
  | inspection (number : Nat) : Generates job (Name.qualify job.root s!"with{number}")

variable {job : Job}

lemma Job.Generates.ne_root (h : job.Generates name) : name ≠ job.root := by
  cases h with
  | lifted | inspection => exact Name.qualify_ne _ _
  | @copy local_ number =>
    have hassoc : Name.qualify (Name.qualify job.root local_) (toString number) =
        Name.qualify job.root (local_ ++ "." ++ toString number) := by
      simp only [Name.qualify, String.append_assoc]
    rw [hassoc]
    exact Name.qualify_ne _ _

lemma Compile.copyName_generated (h : name ∈ job.auxiliaries) (w : Workspace) :
    job.Generates (copyName job w name) := by
  unfold copyName
  split
  · exact .lifted h
  · exact .copy _ h

/-- The equations and the elimination principle of a function follow its tree. -/
structure CompiledFunction.Derived (f : CompiledFunction) : Prop where
  equations : f.equations = Equation.ofTree f.name f.tree
  elimination : ∃ Γ n, f.elimination = (Elimination.draft f.name Γ f.tree).value n

lemma Equation.generate_yields
    (h : Yields (Equation.generate sig function tree) n equations m) :
    equations = Equation.ofTree function tree := by
  simp only [Equation.generate, yields_bind, yields_pure] at h
  obtain ⟨_, _, -, rfl, -⟩ := h
  rfl

lemma Elimination.derive_yields
    (h : Yields (Elimination.derive sig function Γ tree) n (e, sig') m) :
    e = (Elimination.draft function Γ tree).value n ∧
      sig' = (sig.addFunction { name := e.name, type := e.type }).addFunction
        { name := e.name, type := e.type, body := some e.term } ∧
      Yields (({ sig := sig.addFunction { name := e.name, type := e.type } } : Env).check []
        e.term e.type) ((Elimination.draft function Γ tree).next n) () m := by
  simp only [Elimination.derive, yields_bind, yields_liftFresh, yields_adapt,
    yields_pure] at h
  obtain ⟨_, _, ⟨rfl, rfl⟩, _, _, hcheck, heq, rfl⟩ := h
  cases heq
  exact ⟨rfl, rfl, hcheck⟩

/-- Between two workspaces auxiliaries were compiled, and their names and those of
`own` were claimed. -/
def Workspace.Gains (job : Job) (own : List Name) (w w' : Workspace) : Prop :=
  ∃ new : List CompiledFunction, w'.auxiliaries = w.auxiliaries ++ new ∧
    w'.held.Perm (own ++ (new.map (·.name) ++ w.held)) ∧
    ∀ f ∈ new, job.Generates f.name ∧ f.Derived

namespace Workspace.Gains

variable {job : Job} {w w₁ : Workspace}

lemma of_eq (haux : w'.auxiliaries = w.auxiliaries) (hheld : w'.held = w.held) :
    w.Gains job [] w' :=
  ⟨[], by rw [haux, append_nil], by rw [hheld]; exact .refl _, by simp⟩

lemma refl (job : Job) (w : Workspace) : w.Gains job [] w := of_eq rfl rfl

lemma trans (h : w.Gains job [] w₁) (h' : w₁.Gains job own w') : w.Gains job own w' := by
  obtain ⟨new, haux, hheld, hnames⟩ := h
  obtain ⟨new', haux', hheld', hnames'⟩ := h'
  refine ⟨new ++ new', by rw [haux', haux, append_assoc], hheld'.trans ?_, fun f hf => ?_⟩
  · refine Perm.append_left own ?_
    rw [map_append, append_assoc]
    calc
      (new'.map (·.name) ++ w₁.held).Perm (new'.map (·.name) ++ (new.map (·.name) ++ w.held)) :=
        Perm.append_left _ hheld
      _ |>.Perm (new.map (·.name) ++ (new'.map (·.name) ++ w.held)) :=
        perm_append_comm_assoc _ _ _
  · exact (mem_append.1 hf).elim (hnames f) (hnames' f)

lemma add (h : w.Gains job [f.name] w') (hname : job.Generates f.name) (hf : f.Derived) :
    w.Gains job [] { w' with auxiliaries := w'.auxiliaries ++ [f] } := by
  obtain ⟨new, haux, hheld, hnames⟩ := h
  refine ⟨new ++ [f], by rw [haux, append_assoc], hheld.trans ?_, fun g hg => ?_⟩
  · simp only [map_append, map_cons, map_nil, append_assoc]
    exact perm_append_comm_assoc _ _ _
  · rcases mem_append.1 hg with hg | hg
    · exact hnames g hg
    · obtain rfl := mem_singleton.1 hg
      exact ⟨hname, hf⟩

end Workspace.Gains

/-! ### Names that are taken -/

/-- A name under which the compilation of a definition may add a function. -/
inductive Job.Touches (job : Job) : Name → Prop
  | root : job.Touches job.root
  | generated {name : Name} : job.Generates name → job.Touches name
  | principle {name : Name} : job.Generates name → job.Touches (Name.qualify name "elim")

/-- What a step may add: an auxiliary whose name it claims, or an elimination principle, which
is not unfolded. -/
inductive Job.Adds (job : Job) (before after : List Name) (name : Name) (f : Function) : Prop
  | auxiliary : job.Generates name → name ∉ before → name ∈ after →
      (f.transparent = true → job.transparent = true) → Adds job before after name f
  | principle {other : Name} : job.Generates other → name = Name.qualify other "elim" →
      f.transparent = false → Adds job before after name f

/-- Between two workspaces names were claimed, and functions were added under them. -/
structure Workspace.Takes (job : Job) (w w' : Workspace) : Prop where
  claims : w.base.claims ⊆ w'.base.claims
  listNotation : w'.sig.listNotation = w.sig.listNotation
  entries : ∀ name, w'.sig.get? name = w.sig.get? name ∨ ∃ f : Function,
    w'.sig.get? name = some (.function f) ∧ job.Adds w.base.claims w'.base.claims name f

lemma Signature.get?_addFunction (sig : Signature) (f : Function) (name : Name) :
    (sig.addFunction f).get? name =
      if name = f.name then some (.function f) else sig.get? name :=
  get?_insert sig f.name (.function f) name

lemma Signature.listNotation_addFunction (sig : Signature) (f : Function) :
    (sig.addFunction f).listNotation = sig.listNotation := by
  unfold addFunction insert
  split <;> rfl

namespace Job.Adds

variable {job : Job} {after : List Name} {name : Name} {f : Function}

lemma touches (h : job.Adds before after name f) : job.Touches name := by
  cases h with
  | auxiliary hname => exact .generated hname
  | principle hother hname => exact hname ▸ .principle hother

lemma mono (h : job.Adds before after name f) (hbefore : before' ⊆ before)
    (hafter : after ⊆ after') : job.Adds before' after' name f := by
  cases h with
  | auxiliary hname hnew hclaimed htransparent =>
    exact .auxiliary hname (fun hmem => hnew (hbefore hmem)) (hafter hclaimed) htransparent
  | principle hother hname hsealed => exact .principle hother hname hsealed

end Job.Adds

namespace Workspace

variable {job : Job} {w w₁ : Workspace}

namespace Takes

lemma of_eq (hsig : w'.sig = w.sig) (hclaims : w.base.claims ⊆ w'.base.claims) : w.Takes job w' :=
  ⟨hclaims, congrArg Signature.listNotation hsig, fun _ => .inl (by rw [hsig])⟩

lemma refl (job : Job) (w : Workspace) : w.Takes job w := of_eq rfl (Subset.refl _)

lemma trans (h : w.Takes job w₁) (h' : w₁.Takes job w') : w.Takes job w' where
  claims := fun _ hc => h'.claims (h.claims hc)
  listNotation := h'.listNotation.trans h.listNotation
  entries name := by
    rcases h'.entries name with heq | ⟨f, hf, hadds⟩
    · rw [heq]
      exact (h.entries name).imp_right fun ⟨f, hf, hadds⟩ =>
        ⟨f, hf, hadds.mono (Subset.refl _) h'.claims⟩
    · exact .inr ⟨f, hf, hadds.mono h.claims (Subset.refl _)⟩

lemma addFunction (h : w.Takes job w') {f : Function}
    (hf : job.Adds w.base.claims w'.base.claims f.name f) :
    w.Takes job { w' with sig := w'.sig.addFunction f } where
  claims := h.claims
  listNotation := (Signature.listNotation_addFunction w'.sig f).trans h.listNotation
  entries name := by
    by_cases hname : name = f.name
    · refine .inr ⟨f, ?_, hname ▸ hf⟩
      change (w'.sig.addFunction f).get? name = _
      rw [Signature.get?_addFunction, if_pos hname]
    · change (w'.sig.addFunction f).get? name = _ ∨ ∃ g : Function,
        (w'.sig.addFunction f).get? name = _ ∧ job.Adds w.base.claims w'.base.claims name g
      rw [Signature.get?_addFunction, if_neg hname]
      exact h.entries name

end Takes

lemma Takes.of_declared (h : w₁.Takes job w') (hclaims : w₁.base.claims = w.base.claims)
    (hlists : w₁.sig.listNotation = w.sig.listNotation)
    (hentries : ∀ name, w₁.sig.get? name = w.sig.get? name ∨
      ∃ f : Function, w₁.sig.get? name = some (.function f) ∧ f.transparent = false ∧
        job.Generates name ∧ name ∉ w.base.claims ∧ name ∈ w'.base.claims) :
    w.Takes job w' where
  claims := hclaims ▸ h.claims
  listNotation := h.listNotation.trans hlists
  entries name := by
    rcases h.entries name with heq | ⟨f, hf, hadds⟩
    · rw [heq]
      refine (hentries name).imp_right fun ⟨f, hf, hsealed, hname, hnew, hclaimed⟩ => ⟨f, hf, ?_⟩
      exact .auxiliary hname hnew hclaimed (by simp [hsealed])
    · exact .inr ⟨f, hf, hadds.mono (hclaims ▸ Subset.refl _) (Subset.refl _)⟩

end Workspace

lemma RuleBase.claim_eq_ok {base : RuleBase} (h : base.claim name = .ok claimed) :
    name ∉ base.claims ∧ claimed = { base with claims := name :: base.claims } := by
  unfold claim at h
  split at h
  · cases h
  · next hname => exact ⟨by simpa using hname, (Except.ok.inj h).symm⟩

/-- Compiling gains auxiliaries, and takes names for them. -/
def Workspace.Builds (job : Job) (w w' : Workspace) : Prop := w.Gains job [] w' ∧ w.Takes job w'

namespace Workspace.Builds

variable {job : Job} {w w₁ : Workspace}

lemma refl (job : Job) (w : Workspace) : w.Builds job w := ⟨.refl job w, .refl job w⟩

lemma trans (h : w.Builds job w₁) (h' : w₁.Builds job w') : w.Builds job w' :=
  ⟨h.1.trans h'.1, h.2.trans h'.2⟩

end Workspace.Builds

/-- The local definitions of the given names are among those of the definition. -/
def Job.Covers (job : Job) (idents : List Ident) : Prop :=
  ∀ ident ∈ idents, ident.name ∈ job.auxiliaries

lemma FunctionProblem.row_mem_of_numbered {p : FunctionProblem} (h : (index, row) ∈ p.numbered) :
    row ∈ p.rows := by
  obtain ⟨⟨row, index⟩, hrow, heq⟩ := mem_map.1 h
  obtain ⟨-, rfl⟩ := Prod.mk.inj heq
  exact (mem_zipIdx' hrow).2 ▸ getElem_mem _

namespace Compile

variable {job : Job} {n m : Nat} {span : Span}

lemma Finishes.derived (h : Finishes job p tree w n f w' m) : f.Derived where
  equations := by
    rw [Equation.generate_yields h.equations, h.name_eq, h.tree_eq]
  elimination := by
    refine ⟨p.params, h.equationsChecked, ?_⟩
    rw [h.name_eq, h.tree_eq]
    exact (Elimination.derive_yields h.elimination).1

/-- Declared auxiliaries have generated names, and nothing is claimed for them yet. -/
lemma declareAuxiliaries_names (hds : job.Covers (definitionsIdents ds))
    (h : Yields (declareAuxiliaries job Γ ds locals) w n result w' m) :
    w'.auxiliaries = w.auxiliaries ∧ w'.held = w.held ∧ ∀ a ∈ result.1, job.Generates a.name ∧
      job.Covers (clausesIdents a.definition.clauses) := by
  induction ds generalizing locals result w n with
  | nil =>
    obtain ⟨rfl, rfl, rfl⟩ := declareAuxiliaries_nil h
    exact ⟨rfl, rfl, by simp⟩
  | cons d ds ih =>
    obtain ⟨a, rest, w₁, k, ⟨hdeclares⟩, hresult, hrest⟩ := declareAuxiliaries_cons h
    have hd : job.Covers d.auxiliaryIdents := fun ident hmem => hds ident (by
      rw [definitionsIdents]
      exact mem_append_left _ hmem)
    obtain ⟨haux, hheld, hnames⟩ := ih (fun ident hmem => hds ident (by
      rw [definitionsIdents]
      exact mem_append_right _ hmem)) hrest
    rw [hdeclares.workspace] at haux hheld
    refine ⟨haux, hheld, ?_⟩
    rw [hresult]
    refine forall_mem_cons.2 ⟨?_, hnames⟩
    rw [hdeclares.auxiliary]
    obtain ⟨span, name, transparent, params, type, clauses⟩ := d
    rw [Definition.auxiliaryIdents] at hd
    exact ⟨copyName_generated (hd name mem_cons_self) w,
      fun ident hmem => hd ident (mem_cons_of_mem _ hmem)⟩

lemma Poses.generates {p : Problem} (i : Poses job p locals span scrut equation rows w n node) :
    job.Generates i.problem.name := by
  rw [i.problem_eq]
  exact i.name_eq ▸ .inspection _

lemma Poses.covers {p : Problem} (i : Poses job p locals span scrut equation rows w n node)
    (hrows : job.Covers (rowsIdents rows)) : job.Covers (rowsIdents i.problem.rows) := by
  rw [i.problem_eq, rowsIdents_pad]
  exact hrows

lemma Auxiliary.covers {a : Auxiliary} {sig : Signature}
    (hrows : sig.matrix a.arity a.definition.clauses = .ok rows)
    (hclauses : job.Covers (clausesIdents a.definition.clauses)) :
    job.Covers (rowsIdents (a.problem Γ locals rows).rows) := by
  rw [Auxiliary.problem, rowsIdents_pad, Signature.rows_idents hrows]
  exact hclauses

lemma declareAuxiliaries_entries
    (h : Yields (declareAuxiliaries job Γ ds locals) w n result w' m) :
    w'.base = w.base ∧ w'.sig.listNotation = w.sig.listNotation ∧
      ∀ name, w'.sig.get? name = w.sig.get? name ∨ ∃ f : Function,
        w'.sig.get? name = some (.function f) ∧ f.transparent = false ∧
          ∃ a ∈ result.1, name = a.name := by
  induction ds generalizing locals result w n with
  | nil =>
    obtain ⟨rfl, rfl, rfl⟩ := declareAuxiliaries_nil h
    exact ⟨rfl, rfl, fun _ => .inl rfl⟩
  | cons d ds ih =>
    obtain ⟨a, rest, w₁, k, ⟨hd⟩, hresult, hrest⟩ := declareAuxiliaries_cons h
    obtain ⟨hbase, hlists, hentries⟩ := ih hrest
    have hsig : w₁.sig = w.sig.addFunction { name := a.name, type := a.type } := by
      rw [hd.workspace]
    refine ⟨hbase.trans (by rw [hd.workspace]), ?_, fun name => ?_⟩
    · rw [hlists, hsig, Signature.listNotation_addFunction]
    rcases hentries name with heq | ⟨f, hf, hsealed, b, hb, hname⟩
    · by_cases hname : name = a.name
      · refine .inr ⟨{ name := a.name, type := a.type }, ?_, rfl, a, ?_, hname⟩
        · rw [heq, hsig, Signature.get?_addFunction, if_pos hname]
        · rw [hresult]
          exact mem_cons_self
      · rw [heq, hsig, Signature.get?_addFunction, if_neg hname]
        exact .inl rfl
    · refine .inr ⟨f, hf, hsealed, b, ?_, hname⟩
      rw [hresult]
      exact mem_cons_of_mem a hb

lemma Finishes.takes {w₀ : Workspace} (h : Finishes job p tree w n f w' m) (hw : w₀.Takes job w)
    (hname : job.Generates p.name) (hnew : p.name ∉ w₀.base.claims)
    (hclaimed : p.name ∈ w.base.claims) : w₀.Takes job w' := by
  obtain ⟨helim, hsig, -⟩ := Elimination.derive_yields h.elimination
  have hprinciple : f.elimination.name = Name.qualify p.name "elim" := by
    rw [helim]
    rfl
  have hbody (e : Option Name) : job.Adds w₀.base.claims w.base.claims p.name
      { name := p.name, type := p.type, body := some f.term, transparent := job.transparent,
        eliminator := e } := .auxiliary hname hnew hclaimed id
  have hbeside (t : Option Term) : job.Adds w₀.base.claims w.base.claims f.elimination.name
      { name := f.elimination.name, type := f.elimination.type, body := t } :=
    .principle hname hprinciple rfl
  rw [h.workspace, hsig]
  exact (((hw.addFunction (hbody none)).addFunction (hbeside none)).addFunction
    (hbeside _)).addFunction (hbody _)

mutual

/-- A function takes its own name, and the names of auxiliaries that it compiles. -/
lemma function_builds : (fuel : Nat) → ∀ {p f w w' n m}, job.Covers (rowsIdents p.rows) →
    Yields (function job fuel p) w n f w' m → f.name = p.name ∧ f.Derived ∧
    (p.name = job.root → w.Gains job [] w') ∧
    (job.Generates p.name → w.Gains job [f.name] w' ∧ w.Takes job w' ∧
      p.name ∉ w.base.claims ∧ p.name ∈ w'.base.claims)
  | 0, _, _, _, _, _, _, _, h => (yields_outOfFuel h).elim
  | fuel + 1, p, f, w, w', n, m, hrows, h => by
    obtain ⟨run⟩ := function_run h
    obtain ⟨hgains, htakes⟩ : (opening p run.claimed).Builds job run.settled := by
      refine Splits.relates (.refl job) .trans ?_ .start run.splits
      intro _ _ _ _ _ _ _ _ _ _ _ _ _ hvisits hdecide hyields
      have hmem := hvisits.suffix.subset (Env.decideRows_reached hdecide)
      exact leaf_builds fuel (fun ident hident => hrows ident
        (mem_rowsIdents.2 ⟨_, FunctionProblem.row_mem_of_numbered hmem, hident⟩)) hyields
    have hdeclare : run.claimed.Gains job [] (opening p run.claimed) := .of_eq rfl rfl
    have hfinish : run.settled.Gains job [] w' := by
      obtain ⟨warnings, hends⟩ := run.ends
      have haux := congrArg Workspace.auxiliaries hends
      have hheld := congrArg Workspace.held hends
      exact .of_eq haux hheld
    have hrest := (hdeclare.trans hgains).trans hfinish
    have hsame := run.finishes.name_eq
    refine ⟨hsame, run.finishes.derived, fun hname => ?_, fun hname => ?_⟩
    · exact (run.claims.resolve_right fun h => h.1 hname).2 ▸ hrest
    · obtain ⟨base, hclaim, hclaimed⟩ := (run.claims.resolve_left fun h => hname.ne_root h.1).2
      -- The name is new, and it stays claimed while the rows are split.
      obtain ⟨hnew, rfl⟩ := RuleBase.claim_eq_ok hclaim
      have hmem : p.name ∈ run.claimed.base.claims := by
        rw [hclaimed]
        exact mem_cons_self
      have hclaims : w.Takes job run.claimed := by
        rw [hclaimed]
        exact .of_eq rfl (subset_cons_self _ _)
      have hstart := hclaims.addFunction (f := { name := p.name, type := p.type })
        (.auxiliary hname hnew hmem (by simp))
      have hreported : run.settled.Takes job run.reported := by
        obtain ⟨-, warnings, hreported⟩ := reportRedundant_yields run.reports
        rw [hreported]
        exact .of_eq rfl (Subset.refl _)
      have hkept := hreported.claims (htakes.claims hmem)
      have hclaimed' : p.name ∈ w'.base.claims := by
        rw [run.finishes.workspace]
        exact hkept
      obtain ⟨new, haux, hheld, hnames⟩ := hrest
      rw [hclaimed] at haux hheld
      refine ⟨⟨new, haux, hheld.trans ?_, hnames⟩, run.finishes.takes
        ((hstart.trans htakes).trans hreported) hname hnew hkept, hnew, hclaimed'⟩
      rw [hsame]
      exact perm_append_comm_assoc _ [p.name] _

lemma leaf_builds : (fuel : Nat) → ∀ {r tree w w' n m}, job.Covers r.row.auxiliaryIdents →
    Yields (leaf job fuel r) w n tree w' m → w.Builds job w'
  | 0, _, _, _, _, _, _, _, h => (yields_outOfFuel h).elim
  | fuel + 1, r, tree, w, w', n, m, hrow, h => by
    rw [Row.auxiliaryIdents_eq] at hrow
    have haux : job.Covers (definitionsIdents r.row.auxiliaries) := fun ident hmem =>
      hrow ident (mem_append_left _ hmem)
    cases leaf_settles h with
    | absurd => exact .refl job w
    | term _ _ hauxiliaries => exact auxiliaries_builds fuel haux hauxiliaries
    | @inspect scrut equation rows _ _ _ _ _ _ _ _ hrhs _ hauxiliaries hinspection =>
      refine (auxiliaries_builds fuel haux hauxiliaries).trans
        (inspection_builds fuel (fun ident hmem => ?_) hinspection)
      rw [hrhs] at hrow
      exact hrow ident (mem_append_right _ hmem)

lemma auxiliaries_builds : (fuel : Nat) → ∀ {Γ ds locals locals' w w' n m},
    job.Covers (definitionsIdents ds) →
    Yields (auxiliaries job fuel Γ ds locals) w n locals' w' m → w.Builds job w'
  | 0, _, _, _, _, _, _, _, _, _, h => (yields_outOfFuel h).elim
  | fuel + 1, Γ, ds, locals, locals', w, w', n, m, hds, h => by
    obtain ⟨declared, w₁, k, hdeclare, hcompile⟩ := auxiliaries_yields h
    obtain ⟨haux, hheld, hnames⟩ := declareAuxiliaries_names hds hdeclare
    obtain ⟨hbase, hlists, hentries⟩ := declareAuxiliaries_entries hdeclare
    -- The auxiliaries are declared first; compiling them claims their names.
    obtain ⟨⟨hgains, htakes⟩, hclaimed⟩ := compileAuxiliaries_builds fuel hnames hcompile
    refine ⟨(Workspace.Gains.of_eq haux hheld).trans hgains,
      htakes.of_declared (by rw [hbase]) hlists fun name => ?_⟩
    refine (hentries name).imp_right fun ⟨f, hf, hsealed, a, ha, hname⟩ => ⟨f, hf, hsealed, ?_⟩
    rw [hname, ← hbase]
    exact ⟨(hnames a ha).1, hclaimed a ha⟩

/-- Each local definition takes its name when it is compiled. -/
lemma compileAuxiliaries_builds : (fuel : Nat) → ∀ {Γ locals declared u w w' n m},
    (∀ a ∈ declared, job.Generates a.name ∧
      job.Covers (clausesIdents a.definition.clauses)) →
    Yields (compileAuxiliaries job fuel Γ locals declared) w n u w' m → w.Builds job w' ∧
    ∀ a ∈ declared, a.name ∉ w.base.claims ∧ a.name ∈ w'.base.claims
  | 0, _, _, _, _, _, _, _, _, _, h => (yields_outOfFuel h).elim
  | _ + 1, _, _, [], _, w, w', _, _, _, h => by
    obtain ⟨rfl, -⟩ := compileAuxiliaries_nil h
    exact ⟨.refl job w, by simp⟩
  | fuel + 1, Γ, locals, a :: rest, u, w, w', n, m, hnames, h => by
    obtain ⟨rows, f, w₁, k, hrows, hfunction, hrest⟩ := compileAuxiliaries_cons h
    obtain ⟨⟨hname, hclauses⟩, hnames⟩ := forall_mem_cons.1 hnames
    obtain ⟨hf, hderived, -, htaken⟩ := function_builds fuel (p := a.problem Γ locals rows)
      (Auxiliary.covers hrows hclauses) hfunction
    obtain ⟨hgains, htakes, hnew, hclaimed⟩ := htaken hname
    obtain ⟨⟨hgains', htakes'⟩, hothers⟩ := compileAuxiliaries_builds fuel hnames hrest
    have hadded : w₁.Takes job { w₁ with auxiliaries := w₁.auxiliaries ++ [f] } :=
      .of_eq rfl (Subset.refl _)
    refine ⟨⟨(hgains.add (hf ▸ hname) hderived).trans hgains', (htakes.trans hadded).trans htakes'⟩,
      forall_mem_cons.2 ⟨⟨hnew, htakes'.claims hclaimed⟩, fun b hb => ?_⟩⟩
    exact ⟨fun hmem => (hothers b hb).1 (htakes.claims hmem), (hothers b hb).2⟩

lemma inspection_builds : (fuel : Nat) → ∀ {p locals span scrut equation rows result w w' n m},
    job.Covers (rowsIdents rows) →
    Yields (inspection job fuel p locals span scrut equation rows) w n result w' m →
    w.Builds job w'
  | 0, _, _, _, _, _, _, _, _, _, _, _, _, h => (yields_outOfFuel h).elim
  | fuel + 1, p, locals, span, scrut, equation, rows, result, w, w', n, m, hrows, h => by
    obtain ⟨i⟩ := inspection_yields h
    have hname := i.generates
    obtain ⟨hf, hderived, -, htaken⟩ := function_builds fuel (i.covers hrows) i.compiles
    obtain ⟨hgains, htakes, -⟩ := htaken hname
    have hposed : w.Takes job { w with inspections := w.inspections + 1 } :=
      .of_eq rfl (Subset.refl _)
    rw [i.workspace]
    exact ⟨(Workspace.Gains.of_eq rfl rfl).trans (hgains.add (hf ▸ hname) hderived),
      (hposed.trans htakes).trans (.of_eq rfl (Subset.refl _))⟩

end

/-- The names that the compilation of a definition holds at its end are those of
the functions that it compiled. -/
lemma definition_names (haux : w.auxiliaries = [])
    (h : Yields (definition decl options) w n d w' m) :
    ∃ job : Job, job.root = decl.name ∧ auxiliaryNames decl.clauses = .ok job.auxiliaries ∧
      d.main.name = decl.name ∧ w'.held.Perm (d.auxiliaries.map (·.name) ++ w.held) ∧
      d.main.Derived ∧ ∀ f ∈ d.auxiliaries, job.Generates f.name ∧ f.Derived := by
  obtain ⟨names, rows, hnames, hrows, hfunction, haux', -⟩ := definition_yields h
  let job : Job :=
    { root := decl.name, transparent := decl.transparent, auxiliaries := names, options }
  have hcovers : job.Covers (rowsIdents rows) := by
    intro ident hmem
    rw [Signature.rows_idents hrows] at hmem
    show ident.name ∈ names
    rw [auxiliaryNames_eq hnames]
    exact mem_map_of_mem hmem
  obtain ⟨hname, hderived, hgains, -⟩ := function_builds _ hcovers hfunction
  obtain ⟨new, haux'', hheld, hnew⟩ := hgains rfl
  rw [haux, nil_append, ← haux'] at haux''
  rw [nil_append, ← haux''] at hheld
  exact ⟨job, rfl, hnames, hname, hheld, hderived, haux'' ▸ hnew⟩

end Compile
end Clausal
