import Clausal.Proofs.Commit
import Clausal.Proofs.Progress

/-!
# Names that a compilation takes

An auxiliary is added once its name is claimed or before it is claimed in the same step, so
a step that succeeds replaces no auxiliary that is there already.  If no constructor and no
function that reduction unfolds has such a name, splitting may rely on what it has found out.
-/

namespace Clausal

open Compile Except List Row Signature Surface
open Eval (Returns)

variable {p : FunctionProblem} {decl : Declaration} {sig' : Signature} {span : Span}

/-! ### Constructors of rows -/

mutual

/-- The constructors of a row and of the rows that inspect a term for it. -/
def Row.allCtors : Row → List Name
  | .mk _ ps rhs _ => patternsCtors ps ++ rhs.allCtors

def RowRhs.allCtors : RowRhs → List Name
  | .term _ => []
  | .inspect _ _ rows => rowsCtors rows
  | .absurd _ => []

def rowsCtors : List Row → List Name
  | [] => []
  | r :: rs => r.allCtors ++ rowsCtors rs

end

lemma Row.allCtors_eq (row : Row) : row.allCtors = row.ctors ++ row.rhs.allCtors := by
  cases row
  rfl

variable {rows : List Row} {sig : Signature} {f : Function} {job : Job}
  {names : List Name} {w : Workspace}

lemma mem_rowsCtors : c ∈ rowsCtors rows ↔ ∃ row ∈ rows, c ∈ row.allCtors := by
  induction rows with
  | nil => simp [rowsCtors]
  | cons row rows ih => simp [rowsCtors, ih]

lemma mem_patternsCtors : c ∈ patternsCtors ps ↔ ∃ p ∈ ps, c ∈ p.ctors := by
  induction ps with
  | nil => simp [patternsCtors]
  | cons p ps ih => simp [patternsCtors, ih]

lemma patternsCtors_append (ps qs : List Pattern) :
    patternsCtors (ps ++ qs) = patternsCtors ps ++ patternsCtors qs := by
  induction ps with
  | nil => rfl
  | cons p ps ih =>
    rw [cons_append, patternsCtors, patternsCtors, ih, append_assoc]

lemma patternsCtors_wildcards (span : Span) (count : Nat) :
    patternsCtors (List.replicate count (.wildcard span)) = [] := by
  induction count with
  | zero => rfl
  | succ count ih =>
    rw [replicate_succ, patternsCtors, ih]
    rfl

@[simp] lemma Row.ctors_pad (row : Row) (before after : Nat) :
    (row.pad before after).ctors = row.ctors := by
  change patternsCtors (List.replicate before (.wildcard row.span) ++ row.patterns ++
    List.replicate after (.wildcard row.span)) = row.ctors
  simp only [patternsCtors_append, patternsCtors_wildcards, nil_append, append_nil]
  rfl

lemma rowsCtors_pad (rows : List Row) (before after : Nat) :
    rowsCtors (rows.map (·.pad before after)) = rowsCtors rows := by
  induction rows with
  | nil => rfl
  | cons row rows ih =>
    have hrhs : (row.pad before after).rhs = row.rhs := rfl
    rw [map_cons, rowsCtors, rowsCtors, ih, allCtors_eq, allCtors_eq, ctors_pad, hrhs]

namespace Signature

variable {sig : Signature}

/-- The names that list patterns stand for are constructors. -/
def ListsKnown (sig : Signature) : Prop :=
  ∀ ⦃nil cons : Name⦄, sig.listNotation = some (nil, cons) → ({ sig } : Env).Knows [nil, cons]

variable (hlists : sig.ListsKnown)

include hlists

lemma Resolved.known (h : sig.Resolved q) :
    ({ sig } : Env).Knows q.ctors := by
  induction h with
  | wildcard | var | inaccessible => exact Env.knows_nil
  | ctor span hctor _ _ ih =>
    refine forall_mem_cons.2 ⟨Option.isSome_of_eq_some hctor, fun c hc => ?_⟩
    obtain ⟨p, hp, hc⟩ := mem_patternsCtors.1 hc
    exact ih p hp c hc
  | @list nil cons elems span hnotation _ ih =>
    obtain ⟨hnil, hcons⟩ := forall_mem_cons.1 (hlists hnotation)
    clear * - hnil hcons ih
    induction elems with
    | nil => exact forall_mem_singleton.2 hnil
    | cons head elems ihs =>
      obtain ⟨hhead, helems⟩ := forall_mem_cons.1 ih
      exact forall_mem_cons.2 ⟨hcons _ mem_cons_self,
        hhead.append ((ihs helems).append Env.knows_nil)⟩

lemma known_rowsBy :
    sig.RowsBy fun _ _ _ row => ({ sig } : Env).Knows row.allCtors := by
  intro arity inherited ps qs rhs rhs' span auxiliaries _ hqs _ hrhs c hc
  rcases mem_append.1 hc with hc | hc
  · obtain ⟨q, hq, hc⟩ := mem_patternsCtors.1 hc
    exact ((patterns_resolved ps hqs).2 q hq).known hlists c hc
  · cases hrhs with
    | term | absurd => cases hc
    | inspect scrut hall =>
      obtain ⟨row, hrow, hc⟩ := mem_rowsCtors.1 hc
      obtain ⟨_, -, hknown⟩ := mem_of_forall₂ hall hrow
      exact hknown c hc

lemma rows_known (h : sig.rows arity inherited cs = .ok rs) :
    ({ sig } : Env).Knows (rowsCtors rs) := by
  intro c hc
  obtain ⟨row, hrow, hc⟩ := mem_rowsCtors.1 hc
  obtain ⟨_, -, hknown⟩ := mem_of_forall₂ ((known_rowsBy hlists).rows cs h) hrow
  exact hknown c hc

end Signature

/-! ### What is spared -/

/-- Nothing that reduction looks at has a name that the compilation of the definition may take.
If the definition is unfolded, none of its local definitions is called like an equation or an
elimination principle. -/
structure Job.Spares (job : Job) (sig : Signature) : Prop where
  ctor : ∀ ⦃c : Name⦄ ⦃k : Ctor⦄, sig.ctor? c = some k → ¬ job.Touches c
  body : ∀ ⦃g : Name⦄ ⦃t : Term⦄, sig.unfoldable? [] g = some t → ¬ job.Touches g
  locals : job.transparent = true → ∀ name ∈ job.auxiliaries, ¬ Name.Derived name
  lists : sig.ListsKnown

/-- As far as reduction looks at a name that may be taken, it is that of an auxiliary, and it
is claimed. -/
structure Workspace.Spared (job : Job) (w : Workspace) : Prop where
  ctor : ∀ ⦃c : Name⦄ ⦃k : Ctor⦄, w.sig.ctor? c = some k → ¬ job.Touches c
  body : ∀ ⦃g : Name⦄ ⦃t : Term⦄, w.sig.unfoldable? [] g = some t → job.Touches g →
    job.Generates g ∧ g ∈ w.base.claims ∧ ∀ other, g ≠ Name.qualify other "elim"
  lists : w.sig.ListsKnown

lemma Signature.Preserves.listsKnown (h : sig.Preserves sig')
    (hlists : sig'.listNotation = sig.listNotation) (hsig : sig.ListsKnown) : sig'.ListsKnown :=
  fun _ _ hnotation => h.knows (hsig (hlists ▸ hnotation))

lemma Signature.ctor?_congr (h : sig'.get? c = sig.get? c) : sig'.ctor? c = sig.ctor? c := by
  rw [ctor?, h, ctor?]

lemma Signature.unfoldable?_congr (h : sig'.get? g = sig.get? g) (unfold : List Name) :
    sig'.unfoldable? unfold g = sig.unfoldable? unfold g := by
  rw [unfoldable?, function?, h, unfoldable?, function?]

lemma Signature.transparent_of_unfoldable? (h : sig.unfoldable? [] g = some t)
    (hf : sig.get? g = some (.function f)) : f.transparent = true ∧ f.body = some t := by
  rw [unfoldable?, function?, hf] at h
  simp only [contains_nil, Bool.or_false] at h
  split at h
  · next htransparent => exact ⟨htransparent, h⟩
  · cases h

namespace Workspace

variable {job : Job} {w w' : Workspace}

/-- What reduction looks at is kept. -/
lemma Takes.preserves (h : w.Takes job w') (hw : w.Spared job) : w.sig.Preserves w'.sig where
  ctor c k hc := by
    rcases h.entries c with heq | ⟨f, -, hadds⟩
    · rw [ctor?_congr heq, hc]
    · exact (hw.ctor hc hadds.touches).elim
  body g t hg := by
    rcases h.entries g with heq | ⟨f, -, hadds⟩
    · rw [unfoldable?_congr heq, hg]
    · obtain ⟨-, hclaimed, hother⟩ := hw.body hg hadds.touches
      cases hadds with
      | auxiliary _ hnew => exact (hnew hclaimed).elim
      | principle _ hname => exact (hother _ hname).elim

lemma Takes.spared (h : w.Takes job w') (hw : w.Spared job)
    (hlocals : job.transparent = true → ∀ name ∈ job.auxiliaries, ¬ Name.Derived name) :
    w'.Spared job where
  ctor c k hc := by
    rcases h.entries c with heq | ⟨f, hf, -⟩
    · rw [ctor?_congr heq] at hc
      exact hw.ctor hc
    · simp [ctor?, hf] at hc
  body g t hg htouches := by
    rcases h.entries g with heq | ⟨f, hf, hadds⟩
    · rw [unfoldable?_congr heq] at hg
      obtain ⟨hname, hclaimed, hother⟩ := hw.body hg htouches
      exact ⟨hname, h.claims hclaimed, hother⟩
    · obtain ⟨htransparent, -⟩ := transparent_of_unfoldable? hg hf
      cases hadds with
      | auxiliary hname _ hclaimed hjob =>
        exact ⟨hname, hclaimed, fun _ => hname.not_derived (hlocals (hjob htransparent)) .elim⟩
      | principle _ _ hsealed => simp [hsealed] at htransparent
  lists := (h.preserves hw).listsKnown h.listNotation hw.lists

/-- Functions that are not unfolded may be declared under the names that are taken. -/
lemma Spared.declare (hw : w.Spared job) (hclaims : w.base.claims ⊆ w'.base.claims)
    (hlists : w'.sig.listNotation = w.sig.listNotation)
    (hentries : ∀ name, w'.sig.get? name = w.sig.get? name ∨ job.Touches name ∧
      ∃ f : Function, w'.sig.get? name = some (.function f) ∧ f.transparent = false) :
    w'.Spared job ∧
      ∀ ⦃c : Name⦄ ⦃k : Ctor⦄, w.sig.ctor? c = some k → w'.sig.ctor? c = some k := by
  have hctor : ∀ ⦃c : Name⦄ ⦃k : Ctor⦄, w.sig.ctor? c = some k → w'.sig.ctor? c = some k := by
    intro c k hc
    have heq := (hentries c).resolve_right fun hadded => hw.ctor hc hadded.1
    rw [ctor?_congr heq, hc]
  refine ⟨⟨fun c k hc => ?_, fun g t hg htouches => ?_, fun nil cons hnotation c hc => ?_⟩, hctor⟩
  · rcases hentries c with heq | ⟨-, f, hf, -⟩
    · rw [ctor?_congr heq] at hc
      exact hw.ctor hc
    · simp [ctor?, hf] at hc
  · rcases hentries g with heq | ⟨-, f, hf, hsealed⟩
    · rw [unfoldable?_congr heq] at hg
      obtain ⟨hgenerated, hclaimed, hother⟩ := hw.body hg htouches
      exact ⟨hgenerated, hclaims hclaimed, hother⟩
    · have htransparent := (transparent_of_unfoldable? hg hf).1
      simp [hsealed] at htransparent
  · obtain ⟨k, hk⟩ := Option.isSome_iff_exists.1 (hw.lists (hlists.symm.trans hnotation) c hc)
    exact Option.isSome_iff_exists.2 ⟨k, hctor hk⟩

end Workspace

/-- Of the names that may be taken, only that of the definition can be without a dot. -/
lemma Job.Touches.eq_root (h : job.Touches name) (hplain : Name.Plain name) :
    name = job.root := by
  have hdotted : ∀ before s, name ≠ Name.qualify before s := by
    rintro before s rfl
    exact hplain (by simp [Name.toList_qualify])
  cases h with
  | root => rfl
  | generated hname =>
    obtain ⟨s, hs⟩ := hname.below
    exact (hdotted _ _ hs).elim
  | principle => exact (hdotted _ _ rfl).elim

/-- A name without a dot is that of an equation or an elimination principle only if it starts
as these do. -/
lemma Name.not_derived (hplain : Plain name) (hhead : name.toList.head? ≠ some 'e') :
    ¬ Derived name := by
  rintro ⟨s, hs, rfl | ⟨before, rfl⟩⟩
  · exact hhead hs.head
  · exact hplain (by simp [toList_qualify])

lemma Signature.mem_names_of_get? (h : sig.get? name = some entry) : name ∈ sig.names := by
  obtain ⟨old, hold, -⟩ := Option.map_eq_some_iff.1 h
  have hkey : old.1 = name := by simpa using find?_some hold
  exact mem_map.2 ⟨old, mem_of_find?_eq_some hold, hkey⟩

lemma Signature.mem_names_addFunction (h : name ∈ (sig.addFunction f).names) :
    name = f.name ∨ name ∈ sig.names := by
  unfold addFunction insert names at h
  split at h
  · simp only [map_map, mem_map, Function.comp_apply] at h
    obtain ⟨old, hold, hname⟩ := h
    split at hname
    · exact .inl hname.symm
    · exact .inr (mem_map.2 ⟨old, hold, hname⟩)
  · simp only [map_append, mem_append, map_cons, map_nil, mem_singleton] at h
    exact h.symm

/-- Where names have no dots, the declaration of a definition spares everything. -/
lemma Declaration.spares_of_plain (hname : Name.Plain decl.name)
    (hplain : ∀ name ∈ sig.names, Name.Plain name) (hlists : sig.listNotation = none)
    (hlocals : ∀ name ∈ names, ¬ Name.Derived name) :
    (decl.job names options).Spares
      (sig.addFunction { name := decl.name, type := decl.type }) := by
  have hself : (sig.addFunction { name := decl.name, type := decl.type }).get? decl.name =
      some (.function { name := decl.name, type := decl.type }) :=
    (get?_addFunction _ _ _).trans (if_pos rfl)
  -- What may be taken of the names that are there is the name of the definition.
  have hroot : ∀ {name : Name} {entry : Entry},
      (sig.addFunction { name := decl.name, type := decl.type }).get? name = some entry →
      (decl.job names options).Touches name → name = decl.name := by
    intro name entry hget htouches
    refine htouches.eq_root ?_
    rcases mem_names_addFunction (mem_names_of_get? hget) with rfl | hmem
    · exact hname
    · exact hplain name hmem
  refine ⟨fun c k hc htouches => ?_, fun g t hg htouches => ?_, fun _ => hlocals,
    fun nil cons hnotation => ?_⟩
  · rw [ctor?] at hc
    split at hc
    · next k' hget =>
        obtain rfl := hroot hget htouches
        rw [hself] at hget
        cases hget
    · cases hc
  · cases hget : (sig.addFunction { name := decl.name, type := decl.type }).get? g with
    | none => simp [unfoldable?, function?, hget] at hg
    | some entry =>
      obtain rfl := hroot hget htouches
      have htransparent := (transparent_of_unfoldable? hg hself).1
      cases htransparent
  · rw [listNotation_addFunction, hlists] at hnotation
    cases hnotation

lemma Job.Spares.spared (h : job.Spares w.sig) : w.Spared job :=
  ⟨h.ctor, fun _ _ hg htouches => (h.body hg htouches).elim, h.lists⟩

/-! ### Calls that fit the definition -/

namespace Compile

variable {job : Job}

/-- The local definitions and names of a task are those of the definition, and the constructors
of its rows are known. -/
def Task.Fits (job : Job) (sig : Signature) : Task → Prop
  | .function p => (p.name = job.root ∨ job.Generates p.name) ∧
      job.Covers (rowsIdents p.rows) ∧ ({ sig } : Env).Knows (rowsCtors p.rows)
  | .leaf r => job.Covers r.row.auxiliaryIdents ∧ ({ sig } : Env).Knows r.row.allCtors
  | .auxiliaries _ ds _ => job.Covers (definitionsIdents ds)
  | .compileAuxiliaries _ _ declared => ∀ a ∈ declared, job.Generates a.name ∧
      job.Covers (clausesIdents a.definition.clauses)
  | .inspection _ _ _ _ _ rows =>
    job.Covers (rowsIdents rows) ∧ ({ sig } : Env).Knows (rowsCtors rows)

/-- The task fits the definition, in a workspace where what reduction looks at is spared. -/
structure Call.Fits (job : Job) (c : Call) : Prop where
  spared : c.workspace.Spared job
  task : c.task.Fits job c.workspace.sig

variable {w : Workspace}

/-- The rows of a function are split where what reduction looks at is as before. -/
lemma Claims.opening_spared (h : Claims job p w claimed)
    (hname : p.name = job.root ∨ job.Generates p.name) (hw : w.Spared job) :
    (opening p claimed).Spared job ∧ w.sig.Preserves (opening p claimed).sig := by
  have htouches : job.Touches p.name := hname.elim (fun heq => heq ▸ .root) .generated
  have hsig : (opening p claimed).sig = w.sig.addFunction { name := p.name, type := p.type } := by
    change claimed.sig.addFunction _ = _
    rw [h.unchanged.1]
  have hclaims : w.base.claims ⊆ (opening p claimed).base.claims := by
    rcases h with ⟨-, rfl⟩ | ⟨-, base, hclaim, rfl⟩
    · exact Subset.refl _
    · obtain ⟨-, rfl⟩ := RuleBase.claim_eq_ok hclaim
      exact subset_cons_self _ _
  have hget : ∀ name, name ≠ p.name → (opening p claimed).sig.get? name = w.sig.get? name :=
    fun name hne => by rw [hsig, get?_addFunction, if_neg hne]
  have hlists : (opening p claimed).sig.listNotation = w.sig.listNotation := by
    rw [hsig, listNotation_addFunction]
  obtain ⟨hspared, hctor⟩ := hw.declare hclaims hlists fun name => by
    by_cases heq : name = p.name
    · refine .inr ⟨heq ▸ htouches, { name := p.name, type := p.type }, ?_, rfl⟩
      rw [hsig, get?_addFunction, if_pos heq]
    · exact .inl (hget name heq)
  refine ⟨hspared, hctor, fun g t hg => ?_⟩
  -- An auxiliary that is unfolded has claimed its name, so no other function can have it.
  have hne : g ≠ p.name := by
    rintro rfl
    obtain ⟨hgenerated, hclaimed, -⟩ := hw.body hg htouches
    rcases h with ⟨hroot, -⟩ | ⟨-, base, hclaim, -⟩
    · exact hgenerated.ne_root hroot
    · exact (RuleBase.claim_eq_ok hclaim).1 hclaimed
  rw [unfoldable?_congr (hget g hne), hg]

/-- The rows that a function settles take names that are claimed. -/
lemma leaf_respects (hrows : job.Covers (rowsIdents p.rows)) :
    Respects (fun w w' => w.Takes job w') p.target (leaf job fuel) p.problem p.numbered w n := by
  intro depth q others w₁ w₂ i k j index row locals forced tree hvisits hdecide hyields
  have hmem := hvisits.suffix.subset (Env.decideRows_reached hdecide)
  exact (leaf_builds fuel (r := ⟨index, row, q, locals, forced⟩) (fun ident hident => hrows ident
    (mem_rowsIdents.2 ⟨row, FunctionProblem.row_mem_of_numbered hmem, hident⟩)) hyields).2

/-- Up to a call of splitting that is visited, only names that are claimed were taken. -/
lemma Visits.takes (hrows : job.Covers (rowsIdents p.rows))
    (h : Visits p.target (leaf job fuel) p.problem p.numbered w n depth call w₁ i) :
    w.Takes job w₁ :=
  h.related (fun w => .refl job w) (fun h h' => h.trans h') (leaf_respects hrows)

variable (hlocals : job.transparent = true → ∀ name ∈ job.auxiliaries, ¬ Name.Derived name)
include hlocals

/-- A call that is made by one that fits the definition fits it as well. -/
lemma Calls.fits {c : Call} (h : Calls job c c') (hc : c.Fits job) : c'.Fits job := by
  obtain ⟨hspared, htask⟩ := hc
  cases h with
  | @leaf p fuel w claimed w₁ n depth i k index q others row locals forced hclaims hvisits
      hdecide =>
      obtain ⟨hname, hrows, hknows⟩ := htask
      obtain ⟨hopening, hpreserves⟩ := hclaims.opening_spared hname hspared
      have htakes := hvisits.takes hrows
      have hrow : row ∈ p.rows := FunctionProblem.row_mem_of_numbered
        (hvisits.suffix.subset (Env.decideRows_reached hdecide))
      refine ⟨htakes.spared hopening hlocals, fun ident hident =>
        hrows ident (mem_rowsIdents.2 ⟨row, hrow, hident⟩), ?_⟩
      exact (hpreserves.trans (htakes.preserves hopening)).knows fun c hc =>
        hknows c (mem_rowsCtors.2 ⟨row, hrow, hc⟩)
  | @auxiliaries r fuel w n k _ _ =>
    obtain ⟨hrow, -⟩ := htask
    rw [auxiliaryIdents_eq] at hrow
    exact ⟨hspared, fun ident hident => hrow ident (mem_append_left _ hident)⟩
  | @inspection r fuel w w₁ n k l locals scrut equation rows hrhs _ haux =>
    obtain ⟨hrow, hknows⟩ := htask
    rw [auxiliaryIdents_eq, hrhs] at hrow
    rw [allCtors_eq, hrhs] at hknows
    obtain ⟨-, htakes⟩ := auxiliaries_builds fuel (fun ident hident =>
      hrow ident (mem_append_left _ hident)) haux
    refine ⟨htakes.spared hspared hlocals, fun ident hident =>
      hrow ident (mem_append_right _ hident), (htakes.preserves hspared).knows ?_⟩
    exact fun c hc => hknows c (mem_append_right _ hc)
  | @declared Γ ds locals locals' declared fuel w w₁ n k hdeclare =>
    obtain ⟨-, -, hnames⟩ := declareAuxiliaries_names htask hdeclare
    obtain ⟨hbase, hlists, hentries⟩ := declareAuxiliaries_entries hdeclare
    refine ⟨(hspared.declare (hbase ▸ Subset.refl _) hlists fun name => ?_).1, hnames⟩
    refine (hentries name).imp_right ?_
    rintro ⟨f, hf, hsealed, a, ha, hname⟩
    exact ⟨hname ▸ .generated (hnames a ha).1, f, hf, hsealed⟩
  | @first Γ locals a others rows fuel w n hrows =>
    obtain ⟨hname, hclauses⟩ := htask a mem_cons_self
    refine ⟨hspared, .inr hname, Auxiliary.covers hrows hclauses, ?_⟩
    rw [Auxiliary.problem, rowsCtors_pad]
    exact rows_known hspared.lists hrows
  | @others Γ locals a others rows fuel w w₁ n k f hrows hfunction =>
    obtain ⟨⟨hname, hclauses⟩, hothers⟩ := forall_mem_cons.1 htask
    obtain ⟨-, -, -, htaken⟩ := function_builds fuel (p := a.problem Γ locals rows)
      (Auxiliary.covers hrows hclauses) hfunction
    obtain ⟨-, htakes, -⟩ := htaken hname
    have hadded : w₁.Takes job { w₁ with auxiliaries := w₁.auxiliaries ++ [f] } :=
      .of_eq rfl (Subset.refl _)
    exact ⟨(htakes.trans hadded).spared hspared hlocals, hothers⟩
  | @posed p locals span scrut equation rows fuel w n node i =>
    obtain ⟨hrows, hknows⟩ := htask
    have hposed : w.Takes job { w with inspections := w.inspections + 1 } :=
      .of_eq rfl (Subset.refl _)
    refine ⟨hposed.spared hspared hlocals, .inr i.generates, i.covers hrows, ?_⟩
    rw [i.problem_eq, rowsCtors_pad]
    exact hknows

lemma Reaches.fits {c : Call} (h : Reaches job c c') (hc : c.Fits job) : c'.Fits job := by
  induction h with
  | refl => exact hc
  | tail _ hcalls ih => exact hcalls.fits hlocals ih

/-- Splitting the rows of a function that fits the definition may rely on what it finds out. -/
lemma Call.Fits.relies {c : Call} (hc : c.Fits job) (htask : c.task = .function p)
    (hclaims : Claims job p c.workspace claimed) (fuel n : Nat) :
    Relies p.target (leaf job fuel) p.problem p.numbered (opening p claimed) n := by
  obtain ⟨hspared, hfits⟩ := hc
  rw [htask] at hfits
  obtain ⟨hname, hrows, hknows⟩ := hfits
  obtain ⟨hopening, hpreserves⟩ := hclaims.opening_spared hname hspared
  refine ⟨fun e he => hpreserves.knows fun c hc => hknows c ?_, ?_⟩
  · refine mem_rowsCtors.2 ⟨e.2, FunctionProblem.row_mem_of_numbered he, ?_⟩
    rw [allCtors_eq]
    exact mem_append_left _ hc
  · intro depth q others w₁ w₂ i k j index row locals forced tree hvisits hdecide hyields
    have htakes := hvisits.takes hrows
    have hsettled := leaf_respects hrows hvisits hdecide hyields
    exact hsettled.preserves (htakes.spared hopening hlocals)

end Compile

lemma Declaration.call_fits (hnames : auxiliaryNames decl.clauses = .ok names)
    (hrows : w.sig.matrix (Telescope.ofType decl.type).1.length decl.clauses = .ok rows)
    (hspares : (decl.job names options).Spares w.sig) :
    (decl.call rows w n).Fits (decl.job names options) := by
  refine ⟨hspares.spared, .inl rfl, fun ident hident => ?_, ?_⟩
  · have hident' : ident ∈ clausesIdents decl.clauses :=
      rows_idents hrows ▸ hident
    change ident.name ∈ names
    rw [auxiliaryNames_eq hnames]
    exact mem_map_of_mem hident'
  · exact rows_known hspares.lists hrows

/-- Every function that is compiled in the course of a definition is split in a workspace where
only functions were added, and splitting may rely on what it finds out. -/
lemma Declaration.opening_relies (w₀ : Workspace) (hsig : w₀.sig.SplitFree n)
    (htype : decl.type.SplitFree n) (hnames : auxiliaryNames decl.clauses = .ok names)
    (hrows : w₀.sig.matrix (Telescope.ofType decl.type).1.length decl.clauses = .ok rows)
    (hspares : (decl.job names options).Spares w₀.sig) {c : Call}
    (hreaches : Reaches (decl.job names options) (decl.call rows w₀ n) c)
    (htask : c.task = .function q)
    (hclaims : Claims (decl.job names options) q c.workspace w) (fuel : Nat) :
    w₀.Extends decl.name n c.supply (opening q w) ∧ q.problem.SplitFree c.supply ∧
      Relies q.target (leaf (decl.job names options) fuel) q.problem q.numbered
        (opening q w) c.supply := by
  obtain ⟨hextends, hsplitFree⟩ := hreaches.extends hsig (decl.call_splitFree htype)
  rw [htask] at hsplitFree
  obtain ⟨hqtype, hqlocals, hname⟩ := hsplitFree
  refine ⟨hextends.trans (hclaims.opening_extends hqtype hname),
    FunctionProblem.problem_splitFree hqtype hqlocals, ?_⟩
  have hfits := hreaches.fits hspares.locals (Declaration.call_fits hnames hrows hspares)
  exact hfits.relies hspares.locals htask hclaims fuel c.supply

end Clausal
