import Clausal.Proofs.Outcome
import Clausal.Proofs.TakenNames

/-!
# How deep splitting goes

No path of a splitting tree has more splits than the rows of its function have constructor
patterns, as long as the compilation takes no name of a constructor or of a function that
reduction unfolds.  So a fuel that is linear in that number suffices.
-/

namespace Clausal

open Eval List

variable {fuel : Nat} {e : Elaboration}

/-! ### Splits on a path -/

mutual

/-- The greatest number of splits on a path of the tree.  The tree of an inspection is that of
another function. -/
def SplitTree.depth : SplitTree → Nat
  | .split _ _ branches => branches.depth + 1
  | .leaf _ _ | .inspect _ _ _ | .absurd _ _ _ _ => 0

def SplitBranches.depth : SplitBranches → Nat
  | .nil => 0
  | .cons _ _ tree rest => max tree.depth rest.depth

end

namespace Compile

lemma leaf_depth (h : Yields (leaf job fuel r) w n tree w' m) : tree.depth = 0 := by
  cases fuel with
  | zero => exact (yields_outOfFuel h).elim
  | succ fuel => cases leaf_settles h <;> rfl

/-- At most so many splits are above what is visited. -/
def DepthBound (bound : Nat) (target : SplitTarget) (settle : ReachedRow → Compile SplitTree)
    (p : Problem) (rows : List (Nat × Row)) (w : Workspace) (n : Nat) : Prop :=
  ∀ depth call w₁ i, Visits target settle p rows w n depth call w₁ i → depth ≤ bound

mutual

/-- The tree has no more splits above a leaf than there are above what is visited. -/
lemma Splits.tree_depth (hbound : DepthBound bound target settle p rows w n)
    (hsettle : ∀ r w₁ i tree w₂ j, Yields (settle r) w₁ i tree w₂ j → tree.depth = 0)
    (hvisits : Visits target settle p rows w n depth (.problem q others) w₁ i) :
    Splits target settle w₁ i q others tree reached w₂ j → tree.depth + depth ≤ bound
  | .settled _ hyields => by
    have hdepth := hbound _ _ _ _ hvisits
    simpa only [hsettle _ _ _ _ _ _ hyields, Nat.zero_add] using hdepth
  | .exhausted _ _ | .empty _ _ => by
    have hdepth := hbound _ _ _ _ hvisits
    simpa only [SplitTree.depth, Nat.zero_add] using hdepth
  | .split hdecide hrefine hall => by
    have henter := Visits.enter hvisits hdecide hrefine
    have hfirst := hbound _ _ _ _ (.branch henter)
    have hrest := SplitsAll.branches_depth hbound hsettle henter hall
    simp only [SplitTree.depth]
    omega

lemma SplitsAll.branches_depth (hbound : DepthBound bound target settle p rows w n)
    (hsettle : ∀ r w₁ i tree w₂ j, Yields (settle r) w₁ i tree w₂ j → tree.depth = 0)
    (hvisits : Visits target settle p rows w n depth (.branches q others rs) w₁ i) :
    SplitsAll target settle w₁ i q others rs branches reached w₂ j → branches.depth = 0 ∨
      branches.depth + (depth + 1) ≤ bound
  | .nil _ _ _ _ => .inl rfl
  | .cons hrun hsplits hall => by
    have hfirst := Splits.tree_depth hbound hsettle (.branch hvisits) hsplits
    have hrest := SplitsAll.branches_depth hbound hsettle (.next hvisits hrun) hall
    simp only [SplitBranches.depth]
    omega

end

/-! ### Splitting that ends -/

section Answers

/-- What splitting asks for where it comes to a problem is answered: the rows are decided, the
variable is refined, empty variables are looked for, and the row that is reached is settled. -/
structure Answers (target : SplitTarget) (settle : ReachedRow → Compile SplitTree) (p : Problem)
    (rows : List (Nat × Row)) (w : Workspace) (n : Nat) : Prop where
  decides : ∀ ⦃depth : Nat⦄ ⦃q : Problem⦄ ⦃others : List (Nat × Row)⦄ ⦃w₁ : Workspace⦄ ⦃i : Nat⦄,
    Visits target settle p rows w n depth (.problem q others) w₁ i →
    ∃ d k, Returns (w₁.env.decideRows q others) i d k
  refines : ∀ ⦃depth : Nat⦄ ⦃q : Problem⦄ ⦃others later : List (Nat × Row)⦄ ⦃w₁ : Workspace⦄
    ⦃i k : Nat⦄ ⦃v : Var⦄ ⦃pattern : Pattern⦄,
    Visits target settle p rows w n depth (.problem q others) w₁ i →
    Returns (w₁.env.decideRows q others) i (.split v pattern later) k →
    ∃ r l, Returns (w₁.env.refinements q.context v pattern).run k r l
  searches : ∀ ⦃depth : Nat⦄ ⦃q : Problem⦄ ⦃others : List (Nat × Row)⦄ ⦃w₁ : Workspace⦄
    ⦃i k : Nat⦄, Visits target settle p rows w n depth (.problem q others) w₁ i →
    Returns (w₁.env.decideRows q others) i .exhausted k →
    ∃ found l, Returns (w₁.env.findEmpty q.context) k found l
  settles : ∀ ⦃depth : Nat⦄ ⦃q : Problem⦄ ⦃others : List (Nat × Row)⦄ ⦃w₁ : Workspace⦄
    ⦃i k index : Nat⦄ ⦃row : Row⦄ ⦃locals : Surface.Locals⦄ ⦃forced : List Forced⦄,
    Visits target settle p rows w n depth (.problem q others) w₁ i →
    Returns (w₁.env.decideRows q others) i (.reached index row locals forced) k →
    Ends (settle { index, row, problem := q, locals, forced }) w₁ k

/-- No variable that is split has more than so many refinements. -/
def Branching (width : Nat) (target : SplitTarget) (settle : ReachedRow → Compile SplitTree)
    (p : Problem) (rows : List (Nat × Row)) (w : Workspace) (n : Nat) : Prop :=
  ∀ ⦃depth : Nat⦄ ⦃q : Problem⦄ ⦃later : List (Nat × Row)⦄ ⦃rs : List Refinement⦄ ⦃w₁ : Workspace⦄
    ⦃i : Nat⦄, Visits target settle p rows w n depth (.branches q later rs) w₁ i →
    rs.length ≤ width

mutual

/-- Splitting ends: each split leaves fuel for the branches and one level less for each. -/
lemma Answers.split_ends (ha : Answers target settle p rows w n)
    (hwidth : Branching width target settle p rows w n)
    (hbound : DepthBound bound target settle p rows w n) : (fuel : Nat) → ∀ {depth q others w₁ i},
    1 + (bound - depth) * (width + 1) ≤ fuel →
    Visits target settle p rows w n depth (.problem q others) w₁ i →
    Ends (split target settle fuel q others) w₁ i
  | 0, _, _, _, _, _, hfuel, _ => by omega
  | fuel + 1, depth, q, others, w₁, i, hfuel, hvisits => by
    rw [split]
    obtain ⟨d, k, hdecide⟩ := ha.decides hvisits
    refine .env_bind (Ends.bind (.lift hdecide) fun d' w₂ k' hd => ?_)
    obtain ⟨hdecide', rfl⟩ := yields_lift.1 hd
    cases d' with
    | reached index row locals forced =>
      exact (ha.settles hvisits hdecide').bind fun _ _ _ _ => .pure _
    | failed error => exact .throw error
    | exhausted =>
      obtain ⟨found, l, hfind⟩ := ha.searches hvisits hdecide'
      refine .env_bind (Ends.bind (.lift hfind) fun found' _ _ _ => ?_)
      cases found' with
      | some v => exact .pure _
      | none => exact .throw _
    | split v pattern later =>
      obtain ⟨r, l, hrefine⟩ := ha.refines hvisits hdecide'
      refine .env_bind (Ends.bind (.checked hrefine) fun rs w₃ l' hyields => ?_)
      obtain ⟨hrs, rfl⟩ := yields_checked.1 hyields
      cases rs with
      | nil => exact .pure _
      | cons r rs =>
        have henter := Visits.enter hvisits hdecide' hrs
        have hdeeper := hbound _ _ _ _ (.branch henter)
        -- A level less is left for the branches; its share of the fuel pays for them.
        have hlevels : bound - depth = bound - (depth + 1) + 1 := by omega
        rw [hlevels, Nat.add_one_mul] at hfuel
        have hlength := hwidth henter
        exact (ha.branches_end hwidth hbound fuel (by omega) henter).bind fun _ _ _ _ => .pure _

/-- Fuel is enough for the branches left and for all levels below. -/
lemma Answers.branches_end (ha : Answers target settle p rows w n)
    (hwidth : Branching width target settle p rows w n)
    (hbound : DepthBound bound target settle p rows w n) :
    (fuel : Nat) → ∀ {depth q others rs w₁ i},
    rs.length + 1 + (bound - (depth + 1)) * (width + 1) ≤ fuel →
    Visits target settle p rows w n depth (.branches q others rs) w₁ i →
    Ends (splitBranches target settle fuel q others rs) w₁ i
  | 0, _, _, _, _, _, _, hfuel, _ => by omega
  | _ + 1, _, _, _, [], _, _, _, _ => .pure _
  | fuel + 1, depth, q, others, r :: rs, w₁, i, hfuel, hvisits => by
    rw [length_cons] at hfuel
    rw [splitBranches]
    refine .fresh_bind (Ends.bind (ha.split_ends hwidth hbound fuel (by omega) (.branch hvisits))
      fun result w₂ j hsplit => ?_)
    exact (ha.branches_end hwidth hbound fuel (by omega) (.next hvisits hsplit)).bind
      fun _ _ _ _ => .pure _

end

lemma Branching.of_families (hsettle : Grows root settle) (hsig : w.sig.SplitFree n)
    (hp : p.SplitFree n)
    (hwidth : ∀ name family, w.sig.family? name = some family → family.ctors.length ≤ width) :
    Branching width target settle p rows w n := by
  suffices hcalls : ∀ depth call w₁ i, Visits target settle p rows w n depth call w₁ i →
      ∀ q later rs, call = .branches q later rs → rs.length ≤ width by
    exact fun _ _ _ _ _ _ hvisits => hcalls _ _ _ _ hvisits _ _ _ rfl
  intro depth call w₁ i h
  induction h with
  | start | branch => exact fun _ _ _ hcall => by cases hcall
  | enter hvisits _ hrefine _ =>
    rintro _ _ _ ⟨⟩
    obtain ⟨hrs⟩ := Env.refinements_yields hrefine
    obtain ⟨_, name, -, hfamily, -⟩ := Env.splitType_yields hrs.splitType
    have hlength := hrs.ctors.length_le
    rw [length_map] at hlength
    exact le_trans hlength
      (hwidth name _ ((hvisits.extends hsettle hsig hp).1.grows.family? hfamily))
  | next _ _ ih =>
    rintro _ _ _ ⟨⟩
    exact Nat.le_of_succ_le (ih _ _ _ rfl)

/-! ### Splitting that has ended -/

mutual

/-- How splitting ends does not depend on its fuel. -/
lemma split_agrees : (fuel fuel' : Nat) → ∀ {q others w₁ i},
    Agree (split target settle fuel q others) (split target settle fuel' q others) w₁ i
  | 0, _, _, _, _, _ => fun _ _ _ _ h _ => (returns_outOfFuel h).elim
  | _ + 1, 0, _, _, _, _ => fun _ _ _ _ _ h => (returns_outOfFuel h).elim
  | fuel + 1, fuel' + 1, q, others, w₁, i => by
    rw [split, split]
    refine (Agree.refl _ _ _).bind fun env w₁ i _ => (Agree.refl _ _ _).bind fun d w₁ i _ => ?_
    cases d with
    | reached index row locals forced | failed error | exhausted => exact .refl _ _ _
    | split v pattern later =>
      refine (Agree.refl _ _ _).bind fun env w₁ i _ =>
        (Agree.refl _ _ _).bind fun rs w₁ i _ => ?_
      cases rs with
      | nil => exact .refl _ _ _
      | cons r rs => exact (splitBranches_agrees fuel fuel').bind fun _ _ _ _ => .refl _ _ _

lemma splitBranches_agrees : (fuel fuel' : Nat) → ∀ {q others rs w₁ i},
    Agree (splitBranches target settle fuel q others rs)
      (splitBranches target settle fuel' q others rs) w₁ i
  | 0, _, _, _, _, _, _ => fun _ _ _ _ h _ => (returns_outOfFuel h).elim
  | _ + 1, 0, _, _, _, _, _ => fun _ _ _ _ _ h => (returns_outOfFuel h).elim
  | _ + 1, _ + 1, _, _, [], _, _ => .refl _ _ _
  | fuel + 1, fuel' + 1, q, others, r :: rs, w₁, i => by
    rw [splitBranches, splitBranches]
    exact (Agree.refl _ _ _).bind fun _ _ _ _ => (split_agrees fuel fuel').bind fun _ _ _ _ =>
      (splitBranches_agrees fuel fuel').bind fun _ _ _ _ => .refl _ _ _

end

/-- The call ends if it has enough fuel. -/
def SplitCall.Ends (target : SplitTarget) (settle : ReachedRow → Compile SplitTree) (w : Workspace)
    (n : Nat) : SplitCall → Prop
  | .problem q others => ∃ fuel, Compile.Ends (split target settle fuel q others) w n
  | .branches q others rs => ∃ fuel, Compile.Ends (splitBranches target settle fuel q others rs) w n

/-- If splitting ends, so does each call that it makes. -/
lemma Visits.ends (hends : (SplitCall.problem p rows).Ends target settle w n)
    (h : Visits target settle p rows w n depth call w₁ i) : call.Ends target settle w₁ i := by
  induction h with
  | start => exact hends
  | @enter depth q others later v pattern rs w₁ i k l _ hdecide hrefine ih =>
    obtain ⟨fuel, hends⟩ := ih
    cases fuel with
    | zero => exact (Ends.not_outOfFuel hends).elim
    | succ fuel =>
      rw [split] at hends
      have hdecided := (Ends.of_env_bind hends).of_lift_bind hdecide
      have hrefined := (Ends.of_env_bind hdecided).of_checked_bind hrefine
      cases rs with
      | nil => exact ⟨1, .pure _⟩
      | cons r rs => exact ⟨fuel, hrefined.of_bind.1⟩
  | @branch depth q others r rs w₁ i _ ih =>
    obtain ⟨fuel, hends⟩ := ih
    cases fuel with
    | zero => exact (Ends.not_outOfFuel hends).elim
    | succ fuel =>
      rw [splitBranches] at hends
      exact ⟨fuel, (Ends.of_fresh_bind hends).of_bind.1⟩
  | @next depth fuel' q others r rs w₁ w₂ i j result _ hsplit ih =>
    obtain ⟨fuel, hends⟩ := ih
    cases fuel with
    | zero => exact (Ends.not_outOfFuel hends).elim
    | succ fuel =>
      rw [splitBranches] at hends
      have hfirst := Ends.of_fresh_bind hends
      -- What the first branch yielded with other fuel, it yields in the run that ends.
      have hyields := (split_agrees fuel fuel').yields hfirst.of_bind.1 hsplit
      exact ⟨fuel, (hfirst.of_bind.2 _ _ _ hyields).of_bind.1⟩

variable (hends : Ends (split target settle fuel p rows) w n)

include hends

lemma Visits.problem_ends
    (h : Visits target settle p rows w n depth (.problem q others) w₁ i) :
    ∃ fuel, Ends (split target settle (fuel + 1) q others) w₁ i := by
  obtain ⟨fuel, hends⟩ := h.ends ⟨fuel, hends⟩
  cases fuel with
  | zero => exact (Ends.not_outOfFuel hends).elim
  | succ fuel => exact ⟨fuel, hends⟩

/-- If splitting ends, then what it asks for is answered. -/
lemma Answers.of_ends :
    Answers target settle p rows w n where
  decides depth q others w₁ i hvisits := by
    obtain ⟨fuel, hends⟩ := hvisits.problem_ends hends
    rw [split] at hends
    exact (Ends.of_env_bind hends).of_bind.1.of_lift
  refines depth q others later w₁ i k v pattern hvisits hdecide := by
    obtain ⟨fuel, hends⟩ := hvisits.problem_ends hends
    rw [split] at hends
    have hdecided := (Ends.of_env_bind hends).of_lift_bind hdecide
    obtain ⟨⟨r, w₂⟩, l, hr⟩ := (Ends.of_env_bind hdecided).of_bind.1
    obtain ⟨⟨r', hr', -⟩, -⟩ := returns_run_checked.1 hr
    exact ⟨r', l, hr'⟩
  searches depth q others w₁ i k hvisits hdecide := by
    obtain ⟨fuel, hends⟩ := hvisits.problem_ends hends
    rw [split] at hends
    have hdecided := (Ends.of_env_bind hends).of_lift_bind hdecide
    exact (Ends.of_env_bind hdecided).of_bind.1.of_lift
  settles depth q others w₁ i k index row locals forced hvisits hdecide := by
    obtain ⟨fuel, hends⟩ := hvisits.problem_ends hends
    rw [split] at hends
    exact ((Ends.of_env_bind hends).of_lift_bind hdecide).of_bind.1

end Answers

/-! ### Functions of a definition -/

end Compile

lemma FunctionProblem.numbered_ctors (p : FunctionProblem) :
    p.numbered.flatMap (fun e => e.2.ctors) = p.rows.flatMap Row.ctors := by
  rw [numbered, flatMap_map]
  calc
    _ = (p.rows.zipIdx.map Prod.fst).flatMap Row.ctors := (flatMap_map ..).symm
    _ = _ := by rw [zipIdx_map_fst]

/-- How deep the rows of a function are split, for every function that is compiled in the course
of a definition.  There are at most as many splits above a problem, and on a path of the tree,
as the rows have constructor patterns; and if what splitting asks for is answered, it ends. -/
theorem compile_splits_bounded (base : RuleBase) {sig : Signature} (decl : Declaration)
    (options : CompileOptions) {names : List Name} {rows : List Row} {n : Nat}
    (hsig : sig.Formed n) (htype : decl.type.SplitFree n)
    (hnames : Surface.auxiliaryNames decl.clauses = .ok names)
    (hrows : sig.matrix (Telescope.ofType decl.type).1.length decl.clauses = .ok rows)
    (hspares : (decl.job names options).Spares sig) {c : Compile.Call}
    (hreaches : Compile.Reaches (decl.job names options)
      (decl.call rows { sig, base, held := [decl.name] } n) c)
    {q : FunctionProblem} (htask : c.task = .function q) {w : Workspace}
    (hclaims : Compile.Claims (decl.job names options) q c.workspace w) (fuel : Nat) :
    let settle := Compile.leaf (decl.job names options) fuel
    let bound := (q.rows.flatMap Row.ctors).length
    (∀ depth call w₁ i, Compile.Visits q.target settle q.problem q.numbered (Compile.opening q w)
        c.supply depth call w₁ i → depth ≤ bound) ∧
      (∀ k tree reached w' m, Compile.Yields (Compile.splitRows q.target settle k q.problem)
        (Compile.opening q w) c.supply (tree, reached) w' m → tree.depth ≤ bound) ∧
      ∀ width, (∀ name family, sig.family? name = some family → family.ctors.length ≤ width) →
        Compile.Answers q.target settle q.problem q.numbered (Compile.opening q w) c.supply →
        ∀ k, 1 + bound * (width + 1) ≤ k →
          Compile.Ends (Compile.splitRows q.target settle k q.problem) (Compile.opening q w)
            c.supply := by
  intro settle bound
  obtain ⟨hopening, hproblem, hrelies⟩ := Declaration.opening_relies
    { sig, base, held := [decl.name] } hsig.splitFree htype hnames hrows hspares hreaches htask
    hclaims fuel
  have hgrows := Compile.leaf_grows (decl.job names options) fuel
  have hopen := hopening.splitFree hsig.splitFree
  have hdepth : ∀ depth call w₁ i, Compile.Visits q.target settle q.problem q.numbered
      (Compile.opening q w) c.supply depth call w₁ i → depth ≤ bound := by
    intro depth call w₁ i hvisits
    have hle := hvisits.depth_le hgrows hopen (hopening.closed hsig.closed) hproblem hrelies
    rwa [FunctionProblem.numbered_ctors] at hle
  refine ⟨hdepth, fun k tree reached w' m hsplit => ?_, fun width hwidth hanswers k hk => ?_⟩
  · exact Compile.Splits.tree_depth hdepth (fun _ _ _ _ _ _ => Compile.leaf_depth) .start
      (Compile.splits_of_split k hsplit)
  · have hbranching : Compile.Branching width q.target settle q.problem q.numbered
        (Compile.opening q w) c.supply :=
      .of_families hgrows hopen hproblem fun name family hfamily =>
        hwidth name family (hopening.grows.family? hfamily)
    exact hanswers.split_ends hbranching hdepth k hk .start

namespace SplitDepth

def succ (p : Surface.Pattern) : Surface.Pattern := .ctor default ⟨default, "succ"⟩ [p]

/-- A local definition of one number. -/
def helper (clauses : List Surface.Clause) : Surface.Definition :=
  .mk default ⟨default, "g"⟩ false [.mk [⟨default, "k"⟩] (.name default "N")] (.name default "N")
    clauses

/-- Two less, if that is possible.  The first clause has a local definition, which is compiled
before the branch of the second one is split. -/
def twoLess : Declaration where
  name := "f"
  span := default
  type := .pi ⟨0, "n"⟩ (.global "N") (.global "N")
  transparent := true
  clauses :=
    [.mk default [.name default "zero"]
        (.term (.app default (.name default "g") (.name default "zero")))
        [helper [.mk default [succ (.name default "k")] (.term (.name default "k")) [],
          .mk default [.name default "k"] (.term (.name default "k")) []]],
      .mk default [succ (succ (.name default "m"))] (.term (.name default "m")) [],
      .mk default [.name default "n"] (.term (.name default "n")) []]

/-- Numbers, and the declared type. -/
def declared (e : Elaboration) : Signature :=
  e.sig.addFunction { name := twoLess.name, type := twoLess.type }

def problem (rows : List Row) : FunctionProblem where
  name := twoLess.name
  span := twoLess.span
  type := twoLess.type
  arity := 1
  rows := rows
  locals := []

def opened (e : Elaboration) (rows : List Row) : Workspace :=
  Compile.opening (problem rows) { sig := declared e, base := {}, held := ["f"] }

/-- Settling the rows of the function. -/
def settle : ReachedRow → Compile SplitTree := Compile.leaf (twoLess.job ["g"] {}) 20

/-- The rows of the function and the tree that they are split into. -/
def tree? (e : Elaboration) (n : Nat) : Option (List Row × SplitTree) :=
  match (declared e).matrix 1 twoLess.clauses with
  | .error _ => none
  | .ok rows =>
    match ((Compile.splitRows (problem rows).target settle 20 (problem rows).problem).run.run
        (opened e rows)) n with
    | some ((.ok (tree, _), _), _) => some (rows, tree)
    | _ => none

lemma yields_of_tree? (h : tree? e n = some (rows, tree)) :
    (declared e).matrix 1 twoLess.clauses = .ok rows ∧
      ∃ reached w m, Compile.Yields (Compile.splitRows (problem rows).target settle 20
        (problem rows).problem) (opened e rows) n (tree, reached) w m := by
  unfold tree? at h
  split at h
  · cases h
  · next rows' hrows =>
      split at h
      · next tree' reached w m hrun =>
          cases h
          exact ⟨hrows, reached, w, m, hrun⟩
      · cases h

/-- The signature has names without dots only, and no list notation. -/
def plainly (sig : Signature) : Bool :=
  sig.listNotation.isNone && sig.names.all fun name => decide (Name.Plain name)

/-- No family has more than so many constructors. -/
def widthAtMost (width : Nat) (sig : Signature) : Bool :=
  sig.names.all fun name => (sig.family? name).all fun family => family.ctors.length ≤ width

lemma family_of_widthAtMost (h : widthAtMost width sig = true)
    (hfamily : sig.family? name = some family) : family.ctors.length ≤ width := by
  have hname : name ∈ sig.names := by
    rw [Signature.family?] at hfamily
    split at hfamily
    · next hget => exact Signature.mem_names_of_get? hget
    · cases hfamily
  have hwidth := all_eq_true.1 h name hname
  rw [hfamily] at hwidth
  simpa using hwidth

lemma twoLess_spares (hplain : ∀ name ∈ e.sig.names, Name.Plain name)
    (hlists : e.sig.listNotation = none) : (twoLess.job ["g"] {}).Spares (declared e) := by
  refine Declaration.spares_of_plain (by decide) hplain hlists fun name hname => ?_
  obtain rfl := mem_singleton.1 hname
  exact Name.not_derived (by decide) (by decide)

/-- The three constructor patterns bound the splits on every path; two of them are reached, and a
fuel of ten suffices. -/
theorem twoLess_splits_bounded : ∃ e n rows tree,
    Returns (elaborate {} [.family Overlap.nat] {}) 0 e n ∧
      (declared e).matrix 1 twoLess.clauses = .ok rows ∧ (rows.flatMap Row.ctors).length = 3 ∧
      (∃ reached w m, Compile.Yields (Compile.splitRows (problem rows).target settle 20
        (problem rows).problem) (opened e rows) n (tree, reached) w m) ∧ tree.depth = 2 ∧
      (∀ depth call w i, Compile.Visits (problem rows).target settle (problem rows).problem
        (problem rows).numbered (opened e rows) n depth call w i → depth ≤ 3) ∧
      ∀ k, 10 ≤ k → Compile.Ends (Compile.splitRows (problem rows).target settle k
        (problem rows).problem) (opened e rows) n := by
  have hmodule : ((elaborate {} [.family Overlap.nat] {} 0).bind fun r =>
      (tree? r.1 r.2).map fun t =>
        decide (0 < r.2) && plainly r.1.sig && widthAtMost 2 (declared r.1) &&
        (t.1.flatMap Row.ctors).length == 3 && t.2.depth == 2) = some true := by decide +kernel
  obtain ⟨⟨e, n⟩, he, hmodule⟩ := Option.bind_eq_some_iff.1 hmodule
  obtain ⟨⟨rows, tree⟩, htree, hfacts⟩ := Option.map_eq_some_iff.1 hmodule
  simp only [Bool.and_eq_true, decide_eq_true_eq, beq_iff_eq, plainly, Option.isNone_iff_eq_none,
    all_eq_true] at hfacts
  obtain ⟨⟨⟨⟨hn, hlists, hplain⟩, hwidth⟩, hctors⟩, hdepth⟩ := hfacts
  obtain ⟨hrows, reached, w, m, hyields⟩ := yields_of_tree? htree
  have hsig : (declared e).Formed n := (elaborate_formed he).declare _ ⟨hn, trivial, trivial⟩
  have hnamed : Surface.auxiliaryNames twoLess.clauses = .ok ["g"] := rfl
  obtain ⟨hvisits, -, hends⟩ := compile_splits_bounded {} twoLess {} hsig ⟨hn, trivial, trivial⟩
    hnamed hrows (twoLess_spares hplain hlists) .refl (q := problem rows) rfl (.inl ⟨rfl, rfl⟩) 20
  have hbound : ((problem rows).rows.flatMap Row.ctors).length = 3 := hctors
  rw [hbound] at hvisits hends
  refine ⟨e, n, rows, tree, he, hrows, hctors, ⟨reached, w, m, hyields⟩, hdepth, hvisits, ?_⟩
  exact hends 2 (fun _ _ => family_of_widthAtMost hwidth) (.of_ends ⟨_, m, hyields⟩)

/-! If a local definition replaces a function that reduction unfolds, a row can be blocked by
the same constructor again. -/

/-- A type for each number, with one value. -/
def indexed : Surface.Family where
  span := default
  name := ⟨default, "I"⟩
  params := []
  type := .arrow default (.name default "N") (.univ default)
  ctors := [⟨⟨default, "mk"⟩, .pi default [.mk [⟨default, "n"⟩] (.name default "N")]
    (.app default (.name default "I") (.name default "n"))⟩]

/-- The number itself, under the name that the local definition will have. -/
def itself : Surface.Definition :=
  .mk default ⟨default, "f.g"⟩ true [.mk [⟨default, "n"⟩] (.name default "N")] (.name default "N")
    [.mk default [.name default "n"] (.term (.name default "n")) []]

/-- Two clauses, the first of which compiles a local definition as soon as it is reached. -/
def clauses : List Surface.Clause :=
  [.mk default [.name default "k",
        .ctor default ⟨default, "mk"⟩ [succ (succ (.name default "zero"))]]
      (.term (.name default "zero"))
      [helper [.mk default [succ (succ (.name default "m"))] (.term (.name default "m")) [],
        .mk default [.name default "k"] (.term (.name default "zero")) []]],
    .mk default [.name default "k", .name default "i"] (.term (.name default "zero")) []]

def replacing : Surface.Definition :=
  .mk default ⟨default, "f"⟩ true
    [.mk [⟨default, "k"⟩] (.name default "N"),
      .mk [⟨default, "i"⟩] (.app default (.name default "I") (.app default (.name default "succ")
        (.app default (.name default "f.g") (.name default "k"))))]
    (.name default "N") clauses

/-- The clauses have four constructor patterns, and there are five splits on a path. -/
theorem replacing_splits_again : ∃ e m f rows,
    Returns (elaborate {} [.family Overlap.nat, .family indexed, .definition itself,
      .definition replacing] {}) 0 e m ∧ f ∈ e.functions ∧ f.name = "f" ∧
      e.sig.matrix 2 clauses = .ok rows ∧ (rows.flatMap Row.ctors).length = 4 ∧
      f.tree.depth = 5 := by
  have hmodule : ((elaborate {} [.family Overlap.nat, .family indexed, .definition itself,
      .definition replacing] {} 0).bind fun r => (r.1.sig.matrix 2 clauses).toOption.map fun rows =>
        (rows.flatMap Row.ctors).length == 4 &&
          r.1.functions.any fun f => f.name == "f" && f.tree.depth == 5) = some true := by
    decide +kernel
  obtain ⟨⟨e, m⟩, he, hmodule⟩ := Option.bind_eq_some_iff.1 hmodule
  obtain ⟨rows, hrows, hfacts⟩ := Option.map_eq_some_iff.1 hmodule
  simp only [Bool.and_eq_true, beq_iff_eq, any_eq_true] at hfacts
  obtain ⟨hctors, f, hf, hname, hdepth⟩ := hfacts
  exact ⟨e, m, f, rows, he, hf, hname, eq_ok_of_toOption hrows, hctors, hdepth⟩

end SplitDepth

end Clausal
