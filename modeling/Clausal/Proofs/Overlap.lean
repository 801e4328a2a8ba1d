import Clausal.Proofs.Contraction
import Clausal.Proofs.Exploration
import Clausal.Proofs.TreeScoping

/-!
# Equations do not overlap

Two leaves of a splitting tree part at a split, where they took the branches of
different constructors.  The variable that was split there occurs in the arguments,
and its place keeps the constructor.
-/

namespace Clausal

open Bool Env List Nameless
open Eval (Returns)

variable {m n : Nat} {r s : Filling} {sig : Signature}

/-! ### Fillings of the same arguments -/

mutual

/-- Fillings that make the same of a term agree on the variables that occur in it. -/
lemma Term.free_eq_of_fill {v : Var} {s r : Filling} (hv : v ∉ stack) :
    (t : Term) → t.occurs v = true → (t.nameless stack).fill s = (t.nameless stack).fill r →
      s.free v = r.free v
  | .univ, hoccurs, _ | .global _, hoccurs, _ => by simp [Term.occurs] at hoccurs
  | .var w, hoccurs, heq => by
    obtain rfl : w = v := by simpa [Term.occurs] using hoccurs
    rcases w.locate_cases stack with ⟨hfree, -⟩ | ⟨-, -, hmem⟩
    · rwa [Term.nameless, hfree] at heq
    · exact (hv hmem).elim
  | .pi w dom cod, hoccurs, heq | .lam w dom cod, hoccurs, heq => by
    simp only [Term.nameless, fill, pi.injEq, lam.injEq] at heq
    simp only [Term.occurs, or_eq_true, and_eq_true, bne_iff_ne] at hoccurs
    rcases hoccurs with hdom | ⟨hne, hcod⟩
    · exact Term.free_eq_of_fill hv dom hdom heq.1
    · have hcons : v ∉ w :: stack := by simp [hv, Ne.symm hne]
      exact shift_inj (Term.free_eq_of_fill hcons cod hcod heq.2)
  | .app head arg, hoccurs, heq | .ann head arg, hoccurs, heq => by
    simp only [Term.nameless, fill, app.injEq, ann.injEq] at heq
    simp only [Term.occurs, or_eq_true] at hoccurs
    rcases hoccurs with hhead | harg
    · exact Term.free_eq_of_fill hv head hhead heq.1
    · exact Term.free_eq_of_fill hv arg harg heq.2
  | .case scrut branches, hoccurs, heq => by
    simp only [Term.nameless, fill, case.injEq] at heq
    simp only [Term.occurs, or_eq_true] at hoccurs
    rcases hoccurs with hscrut | hbranches
    · exact Term.free_eq_of_fill hv scrut hscrut heq.1
    · exact Branches.free_eq_of_fill hv branches hbranches heq.2
  | .absurd scrut, hoccurs, heq => by
    simp only [Term.nameless, fill, absurd.injEq] at heq
    exact Term.free_eq_of_fill hv scrut hoccurs heq

lemma Branches.free_eq_of_fill {v : Var} {s r : Filling} (hv : v ∉ stack) :
    (bs : Branches) → bs.occurs v = true →
      (bs.nameless stack).fill s = (bs.nameless stack).fill r → s.free v = r.free v
  | .nil, hoccurs, _ => by simp [Branches.occurs] at hoccurs
  | .cons _ fields body rest, hoccurs, heq => by
    simp only [Branches.nameless, fill, arm.injEq] at heq
    obtain ⟨-, -, hbody, hrest⟩ := heq
    simp only [Branches.occurs, or_eq_true, and_eq_true, not_eq_true',
      contains_eq_mem, decide_eq_false_iff_not] at hoccurs
    rcases hoccurs with ⟨hfields, hin⟩ | hin
    · have happend : v ∉ fields.reverse ++ stack := by simp [hfields, hv]
      exact shift_inj (Term.free_eq_of_fill happend body hin hbody)
    · exact Branches.free_eq_of_fill hv rest hin hrest

end

namespace Filling

/-- The forms of arguments, with their variables replaced. -/
def args (s : Filling) (ts : List Term) : List Nameless := ts.map fun t => (t.nameless []).fill s

lemma free_eq_of_args (h : s.args ts = r.args ts) (hv : ∃ t ∈ ts, t.occurs v = true) :
    s.free v = r.free v := by
  obtain ⟨t, ht, hoccurs⟩ := hv
  exact t.free_eq_of_fill (not_mem_nil) hoccurs (map_inj_left.1 h t ht)

lemma args_andThen (h : us.map (Term.nameless []) = s.args ts) :
    r.args us = (s.andThen r).args ts := by
  have hmap : r.args us = (us.map (Term.nameless [])).map (fill r) := by
    rw [map_map]
    rfl
  rw [hmap, h, args, args, map_map]
  exact map_congr_left fun t _ => fill_fill _ s r

end Filling

/-- A refined problem has the arguments of the problem, with the solutions put in. -/
lemma Env.Refined.args_eq {p q : Problem} {r : Refinement}
    (h : Refined { sig } p.context v k r l) (hsig : sig.SplitFree k) (hp : p.SplitFree k)
    (hln : l ≤ n) (hpq : p.Refines r n m q) :
    q.args.map (Term.nameless []) = r.subst.filling.args p.args := by
  have hP := Term.splitFree_hereditary
  obtain ⟨h₁, h₂, h₃, h₄⟩ := h.supply
  have hsubst := (h.subst_all hsig.admits trivial hp.context).mono hP hln
  have hargs : ∀ a ∈ p.args, a.SplitFree n := fun a ha => (hp.args a ha).mono (by omega)
  refine (map_eq_of_forall₂ ((forall₂_and_left _ _).2 ⟨hargs, hpq.args⟩) fun a b hab => ?_).symm
  exact (hsubst.nameless hP hab.2 hab.1).symm

/-! ### Leaves -/

/-- No terms for their variables make the arguments of two leaves equal. -/
def LeafSite.Apart (site site' : LeafSite) : Prop :=
  ∀ s r : Filling, s.args site.args ≠ r.args site'.args

/-- No family has a constructor twice. -/
def Signature.CtorsNodup (sig : Signature) : Prop :=
  ∀ ⦃name : Name⦄ ⦃family : Family⦄, sig.family? name = some family → family.ctors.Nodup

lemma Env.Refinements.ctors_nodup (h : Refinements { sig } Γ v n rs m) (hsig : sig.CtorsNodup)
      : (rs.map (·.ctor)).Nodup := by
  obtain ⟨type, name, -, hfamily, -⟩ := splitType_yields h.splitType
  exact (hsig hfamily).sublist h.ctors

namespace Compile

/-- Settling a row makes at most one leaf, with the arguments of the problem. -/
def SettlesOnce (settle : ReachedRow → Compile SplitTree) : Prop :=
  ∀ ⦃r : ReachedRow⦄ ⦃w : Workspace⦄ ⦃n : Nat⦄ ⦃tree : SplitTree⦄ ⦃w' : Workspace⦄ ⦃m : Nat⦄,
    Yields (settle r) w n tree w' m →
    tree.leaves = [] ∨ ∃ site rhs, tree.leaves = [(site, rhs)] ∧ site.args = r.problem.args

lemma leaf_settlesOnce (job : Job) (fuel : Nat) : SettlesOnce (leaf job fuel) := by
  intro r w n tree w' m h
  cases fuel with
  | zero => exact (yields_outOfFuel h).elim
  | succ fuel =>
    cases leaf_settles h with
    | absurd => exact .inl rfl
    | term | inspect => exact .inr ⟨_, _, rfl, rfl⟩

mutual

/-- The leaves of a tree are apart, and their arguments are those of the problem with
something put for variables. -/
lemma Splits.leaves_apart (hgrows : Grows root settle) (honce : SettlesOnce settle) {n m : Nat}
    (hsig : w.sig.SplitFree n) (hclosed : w.sig.Closed)
    (hctors : w.sig.CtorsNodup) (hp : p.SplitFree n) :
    Splits target settle w n p rows tree reached w' m →
    tree.leaves.Pairwise (fun l l' => l.1.Apart l'.1) ∧
      ∀ l ∈ tree.leaves, ∃ s : Filling, l.1.args.map (Term.nameless []) = s.args p.args
  | .settled _ hyields => by
    rcases honce hyields with hnil | ⟨site, rhs, hone, hargs⟩
    · rw [hnil]
      exact ⟨.nil, by simp⟩
    · rw [hone]
      refine ⟨pairwise_singleton _ _, fun l hl => ⟨.id, ?_⟩⟩
      obtain rfl := mem_singleton.1 hl
      rw [hargs]
      exact map_congr_left fun t _ => (fill_id _).symm
  | .exhausted _ _ | .empty _ _ => ⟨.nil, by simp [SplitTree.leaves]⟩
  | .split (k := k) (l := l) (v := v) hdecide hrefine hall => by
    have hk : n ≤ k := decideRows_forward _ _ hdecide
    have hl : k ≤ l := refinements_forward _ hrefine
    obtain ⟨hrs⟩ := refinements_yields hrefine
    have hoccurs := decideRows_occurs hclosed.body hp.args_below hdecide
    obtain ⟨hapart, hargs⟩ := SplitsAll.leaves_apart hgrows honce
      (hsig.mono (by omega)) hclosed hctors (hsig.mono hk) (hp.mono hk) hoccurs
      hrs.refined (hrs.ctors_nodup hctors) (by omega) hall
    refine ⟨hapart, fun leaf hleaf => ?_⟩
    obtain ⟨r, -, s, args, -, heq⟩ := hargs leaf hleaf
    exact ⟨s, heq⟩

/-- In the leaves of a branch the variable that was split is replaced by the
constructor of the branch. -/
lemma SplitsAll.leaves_apart (hgrows : Grows root settle) (honce : SettlesOnce settle)
    {n m : Nat}

    (hsig : w.sig.SplitFree n) (hclosed : w.sig.Closed) (hctors : w.sig.CtorsNodup)
    {sig : Signature} {v : Var} (hsig' : sig.SplitFree k) (hp : p.SplitFree k)
    (hoccurs : ∃ a ∈ p.args, a.occurs v = true)
    (hrs : ∀ r ∈ rs, Nonempty (Refined { sig } p.context v k r l))
    (hnodup : (rs.map (·.ctor)).Nodup) (hln : l ≤ n) :
    SplitsAll target settle w n p rows rs branches reached w' m →
    branches.leaves.Pairwise (fun l l' => l.1.Apart l'.1) ∧
      ∀ l ∈ branches.leaves, ∃ r ∈ rs, ∃ (s : Filling) (args : List Nameless),
        s.free v = (global r.ctor).apps args ∧
          l.1.args.map (Term.nameless []) = s.args p.args
  | .nil _ _ _ _ => ⟨.nil, by simp [SplitBranches.leaves]⟩
  | .cons (r := r) _ hsplits hall => by
    obtain ⟨⟨hr⟩, hrs⟩ := forall_mem_cons.1 hrs
    have hpq := p.refine_refines r n
    obtain ⟨hnew, hnodup⟩ := nodup_cons.1 hnodup
    have hk := hpq.le
    have hq := hr.problem_splitFree hsig' hp hln hpq
    have hqargs := hr.args_eq hsig' hp hln hpq
    obtain ⟨hapart, hargs⟩ := Splits.leaves_apart hgrows honce (hsig.mono hk) hclosed hctors hq
      hsplits
    have hfirst := (Workspace.Extends.of_eq hk rfl rfl).trans
      (hsplits.grown hgrows (hsig.mono hk) hq).1
    obtain ⟨hapart', hargs'⟩ := SplitsAll.leaves_apart hgrows honce (hfirst.splitFree hsig)
      (hfirst.closed hclosed) (fun _ _ hfamily => hctors (hfirst.grows.family? hfamily)) hsig' hp
      hoccurs hrs hnodup (hln.trans hfirst.le) hall
    -- What the leaves of the first branch put for the variable starts with its constructor.
    have hhead : ∀ leaf : LeafSite × Term,
        (∃ s : Filling, leaf.1.args.map (Term.nameless []) = s.args ((p.refine r).value n).args) →
        ∃ (s : Filling) (args : List Nameless),
          s.free v = (global r.ctor).apps args ∧
            leaf.1.args.map (Term.nameless []) = s.args p.args := by
      rintro leaf ⟨s, hs⟩
      obtain ⟨args, himage⟩ := hr.subst_ctor
      refine ⟨r.subst.filling.andThen s, args.map fun a => (a.nameless []).fill s, ?_, ?_⟩
      · change ((r.subst.image v).nameless []).fill s = _
        rw [himage, Term.nameless_apps, fill_apps, map_map]
        rfl
      · rw [hs, Filling.args_andThen hqargs]
    rw [SplitBranches.leaves]
    refine ⟨pairwise_append.2 ⟨hapart, hapart', ?_⟩, fun leaf hleaf => ?_⟩
    · -- Leaves of different branches have different constructors where the variable was.
      intro leaf hleaf leaf' hleaf' s s' heq
      obtain ⟨s₁, args, hs₁, hargs₁⟩ := hhead leaf (hargs leaf hleaf)
      obtain ⟨r', hr', s₂, args', hs₂, hargs₂⟩ := hargs' leaf' hleaf'
      rw [Filling.args_andThen hargs₁, Filling.args_andThen hargs₂] at heq
      have hfree : (s₁.free v).fill s = (s₂.free v).fill s' :=
        Filling.free_eq_of_args heq hoccurs
      rw [hs₁, hs₂, fill_apps, fill_apps] at hfree
      obtain ⟨hctor, -⟩ := global_apps_inj hfree
      exact hnew (mem_map.2 ⟨r', hr', hctor.symm⟩)
    · rcases mem_append.1 hleaf with hleaf | hleaf
      · obtain ⟨s, args, hs, hargs⟩ := hhead leaf (hargs leaf hleaf)
        exact ⟨r, mem_cons_self, s, args, hs, hargs⟩
      · obtain ⟨r', hr', hrest⟩ := hargs' leaf hleaf
        exact ⟨r', mem_cons_of_mem r hr', hrest⟩

end

/-- The leaves of a compiled tree overlap nowhere. -/
lemma function_leaves_apart : (fuel : Nat) → ∀ {p f w w' n m}, w.sig.SplitFree n →
    w.sig.Closed → w.sig.CtorsNodup → p.type.SplitFree n → p.locals.SplitFree n →
    Name.Under job.root p.name → Yields (function job fuel p) w n f w' m →
    f.tree.leaves.Pairwise fun l l' => l.1.Apart l'.1
  | 0, _, _, _, _, _, _, _, _, _, _, _, _, h => (yields_outOfFuel h).elim
  | fuel + 1, p, f, w, w', n, m, hsig, hclosed, hctors, htype, hlocals, hname, h => by
    obtain ⟨run⟩ := function_run h
    have hopening := run.claims.opening_extends htype hname
    rw [run.finishes.tree_eq]
    exact (run.splits.leaves_apart (leaf_grows job fuel) (leaf_settlesOnce job fuel)
      (hopening.splitFree hsig) (hopening.closed hclosed)
      (fun _ _ hfamily => hctors (hopening.grows.family? hfamily))
      (FunctionProblem.problem_splitFree htype hlocals)).1

end Compile

lemma elaborate_leaves_apart (h : Returns (elaborate base items options) n e m)
    (hf : f ∈ e.functions) : f.tree.leaves.Pairwise fun l l' => l.1.Apart l'.1 := by
  obtain ⟨d, hd, hfd⟩ := mem_flatMap.1 hf
  obtain ⟨base, sig, decl, options, base', k, l, hsig, htype, hclosed, hrun, -⟩ :=
    elaborate_compiled h d hd
  obtain ⟨names, rows, w, -, rfl, -, hmakes⟩ := compile_makes hrun
  -- The function was compiled in the course of the definition, where only functions were added.
  obtain ⟨c, hreaches, p, w', j, htask, hfunction⟩ := hmakes f hfd
  obtain ⟨hextends, hsplitFree⟩ := hreaches.extends hsig.splitFree (decl.call_splitFree htype)
  rw [htask] at hsplitFree
  obtain ⟨htype, hlocals, hname⟩ := hsplitFree
  exact Compile.function_leaves_apart c.fuel (hextends.splitFree hsig.splitFree)
    (hextends.closed hsig.closed)
    (fun _ _ hfamily => hsig.ctors_nodup (hextends.grows.family? hfamily)) htype hlocals hname
    hfunction

/-! ### Equations -/

/-- No term is an instance of the left sides of two leaves that are apart. -/
lemma LeafSite.Apart.not_instance {site : LeafSite} (h : site.Apart site') (name : Name)
    (t : Term) : ¬ (t.IsInstance ((Term.global name).apps site.args) ∧
      t.IsInstance ((Term.global name).apps site'.args)) := by
  rintro ⟨⟨s, hs⟩, ⟨r, hr⟩⟩
  rw [Term.nameless_apps, fill_apps, map_map] at hs hr
  exact h s r (global_apps_inj (hs.symm.trans hr)).2

mutual

lemma SplitTree.SplitFree.rhs : {tree : SplitTree} → tree.SplitFree n →
    ∀ l ∈ tree.leaves, l.2.SplitFree n
  | .split _ _ _, h => h.2.2.rhs
  | .leaf _ _, h => fun l hl => by
    obtain rfl := mem_singleton.1 hl
    exact h.2
  | .inspect _ _ _, h => fun l hl => by
    obtain rfl := mem_singleton.1 hl
    exact h.2.1
  | .absurd _ _ _ _, _ => fun l hl => by cases hl

lemma SplitBranches.SplitFree.rhs : {branches : SplitBranches} →
    branches.SplitFree n → ∀ l ∈ branches.leaves, l.2.SplitFree n
  | .nil, _ => fun l hl => by cases hl
  | .cons _ _ _ _, h => fun l hl =>
    (mem_append.1 hl).elim (h.2.1.rhs l) (h.2.2.rhs l)

end

namespace Equation

lemma exists_leaf (hq : q ∈ ofTree function tree) :
    ∃ l ∈ tree.leaves, q.rule.lhs = (Term.global function).apps l.1.args ∧ q.rule.rhs = l.2 := by
  obtain ⟨⟨l, index⟩, hl, rfl⟩ := mem_map.1 hq
  exact ⟨l, fst_mem_of_mem_zipIdx hl, rfl, rfl⟩

lemma ofTree_lhs (function : Name) (tree : SplitTree) :
    (ofTree function tree).map (·.rule.lhs) =
      tree.leaves.map fun l => (Term.global function).apps l.1.args := by
  rw [ofTree, map_map]
  calc
    _ = tree.leaves.zipIdx.map ((fun l => (Term.global function).apps l.1.args) ∘ Prod.fst) := rfl
    _ = _ := by rw [← map_map, zipIdx_map_fst]

end Equation

/-- The equations of a function of a module do not overlap: no term is an instance of two
left sides, at most one equation matches a term that shares no variable with them, and
the first one that fires does not depend on their order. -/
theorem elaborate_equations_apart {base : RuleBase} {items : List Surface.Item}
    {options : CompileOptions} {n m : Nat} {e : Elaboration}
    (h : Returns (elaborate base items options) n e m) {f : CompiledFunction}
    (hf : f ∈ e.functions) :
    (f.equations.map (·.rule.lhs) =
        f.tree.leaves.map fun l => (Term.global f.name).apps l.1.args) ∧
      (f.equations.Pairwise fun q q' => ∀ t : Term,
        ¬ (t.IsInstance q.rule.lhs ∧ t.IsInstance q'.rule.lhs)) ∧
      ∀ (t : Term) (k : Nat), m ≤ k → (∀ q ∈ f.equations, t.Over (.outside q.rule.context k)) →
        (f.equations.Pairwise fun q q' => ∀ i ≥ k, ∀ j ≥ k,
          ¬ (q.rule.MatchesFrom i t ∧ q'.rule.MatchesFrom j t)) ∧
        ∀ rules : List Rule, (f.equations.map (·.rule)).Perm rules → ∀ i ≥ k, ∀ j ≥ k,
          ((Rule.fireFirst? (f.equations.map (·.rule)) t).value i).map (Term.nameless []) =
            ((Rule.fireFirst? rules t).value j).map (Term.nameless []) := by
  obtain ⟨d, hd, hfd⟩ := mem_flatMap.1 hf
  obtain ⟨l, hl, ⟨hmade⟩⟩ := (elaborate_compiled h d hd).made f hfd
  have hlhs : f.equations.map (·.rule.lhs) =
      f.tree.leaves.map fun l => (Term.global f.name).apps l.1.args := by
    rw [hmade.equations_eq, Equation.ofTree_lhs]
  have hapart : f.equations.Pairwise fun q q' => ∀ t : Term,
      ¬ (t.IsInstance q.rule.lhs ∧ t.IsInstance q'.rule.lhs) := by
    refine pairwise_map (R := fun lhs lhs' => ∀ t : Term,
      ¬ (t.IsInstance lhs ∧ t.IsInstance lhs')).1 ?_
    rw [hlhs]
    refine pairwise_map.2 ((elaborate_leaves_apart h hf).imp fun hsites t => ?_)
    exact hsites.not_instance f.name t
  refine ⟨hlhs, hapart, fun t k hk hout => ?_⟩
  have hmatches : f.equations.Pairwise fun q q' => ∀ i ≥ k, ∀ j ≥ k,
      ¬ (q.rule.MatchesFrom i t ∧ q'.rule.MatchesFrom j t) := by
    refine hapart.imp_of_mem fun hq hq' hnot i hi j hj hboth => hnot t ⟨?_, ?_⟩
    · exact Term.matchWith_instance ((hout _ hq).mono (Reach.outside_mono hi)) hboth.1
    · exact Term.matchWith_instance ((hout _ hq').mono (Reach.outside_mono hj)) hboth.2
  refine ⟨hmatches, fun rules hperm i hi j hj => ?_⟩
  refine Rule.fireFirst?_perm hperm (n := k) (fun r hr => ?_) ?_ hi hj
  · obtain ⟨q, hq, rfl⟩ := mem_map.1 hr
    refine ⟨hout q hq, ?_⟩
    rw [hmade.equations_eq] at hq
    obtain ⟨leaf, hleaf, -, hrhs⟩ := Equation.exists_leaf hq
    rw [hrhs]
    have hsupply := hmade.supply
    exact ((hmade.tree_splitFree.rhs leaf hleaf).mono (by omega)).below
  · exact pairwise_map.2 (hmatches.imp fun hnot => hnot k (by omega) k (by omega))

lemma eq_ok_of_toOption {r : Except ε α} (h : r.toOption = some a) : r = .ok a := by
  cases r with
  | error e => cases h
  | ok b => exact congrArg Except.ok (Option.some.inj h)

namespace Overlap

/-- Natural numbers. -/
def nat : Surface.Family where
  span := default
  name := ⟨default, "N"⟩
  params := []
  type := .univ default
  ctors := [⟨⟨default, "zero"⟩, .name default "N"⟩,
    ⟨⟨default, "succ"⟩, .arrow default (.name default "N") (.name default "N")⟩]

/-- Positions below a number. -/
def position : Surface.Family where
  span := default
  name := ⟨default, "P"⟩
  params := []
  type := .arrow default (.name default "N") (.univ default)
  ctors := [⟨⟨default, "here"⟩, .pi default [.mk [⟨default, "n"⟩] (.name default "N")] belowSucc⟩,
    ⟨⟨default, "there"⟩, .pi default [.mk [⟨default, "n"⟩] (.name default "N")]
      (.arrow default (.app default (.name default "P") (.name default "n")) belowSucc)⟩]
where
  belowSucc := .app default (.name default "P")
    (.app default (.name default "succ") (.name default "n"))

/-- The distance of a position; splitting the position solves the number before it. -/
def distance : Surface.Definition :=
  .mk default ⟨default, "distance"⟩ false
    [.mk [⟨default, "n"⟩] (.name default "N"),
      .mk [⟨default, "i"⟩] (.app default (.name default "P") (.name default "n"))]
    (.name default "N")
    [.mk default [.placeholder default, .ctor default ⟨default, "here"⟩ [.placeholder default]]
        (.term (.name default "zero")) [],
      .mk default [.placeholder default,
          .ctor default ⟨default, "there"⟩ [.name default "n", .name default "i"]]
        (.term (.app default (.name default "succ") (.app default
          (.app default (.name default "distance") (.name default "n")) (.name default "i")))) []]

/-- What elaboration makes of positions and their distance. -/
def elaborated? : Option (Elaboration × Nat) :=
  elaborate {} [.family nat, .family position, .definition distance] {} 0

/-- The distance of the first position below one. -/
def call : Term :=
  (Term.global "distance").apps
    [.app (.global "succ") (.global "zero"), .app (.global "here") (.global "zero")]

/-- One of the two equations for the distance matches the call, so the other one does not, and
the rules taken in reverse make the same of it. -/
theorem distance_equations_apart : ∃ e m f,
    Returns (elaborate {} [.family nat, .family position, .definition distance] {}) 0 e m ∧
      f ∈ e.functions ∧ f.tree.leaves.length = 2 ∧
      (∃ q ∈ f.equations, q.rule.MatchesFrom m call) ∧
      (f.equations.Pairwise fun q q' =>
        ¬ (q.rule.MatchesFrom m call ∧ q'.rule.MatchesFrom m call)) ∧
      ((Rule.fireFirst? (f.equations.map (·.rule)).reverse call).value m).map (Term.nameless []) =
        some (.global "zero") := by
  have hmodule : (elaborated?.map fun r => r.1.functions.any fun f =>
      f.name == "distance" && f.tree.leaves.length == 2 &&
        (f.equations.any fun q =>
          ((q.rule.lhs.matchWith q.rule.context call .empty).value r.2).isSome) &&
        ((Rule.fireFirst? (f.equations.map (·.rule)) call).value r.2).map (Term.nameless []) ==
          some (.global "zero")) = some true := by decide +kernel
  obtain ⟨⟨e, m⟩, he, hany⟩ := Option.map_eq_some_iff.1 hmodule
  obtain ⟨f, hf, hfacts⟩ := any_eq_true.1 hany
  simp only [Bool.and_eq_true, beq_iff_eq, any_eq_true] at hfacts
  obtain ⟨⟨⟨-, hleaves⟩, hmatch⟩, hfire⟩ := hfacts
  obtain ⟨-, -, hrules⟩ := elaborate_equations_apart he hf
  have hclosed : call.Over .closed := by simp [call, Term.apps, Term.Over, Reach.closed]
  obtain ⟨hone, horder⟩ := hrules call m (by omega) fun q _ =>
    hclosed.mono ⟨fun _ hx => False.elim hx, fun _ hc => hc, fun hs => hs⟩
  refine ⟨e, m, f, he, hf, hleaves, hmatch, ?_, ?_⟩
  · exact hone.imp fun hnot => hnot m (by omega) m (by omega)
  · rw [← horder _ (reverse_perm _).symm m (by omega) m (by omega), hfire]

end Overlap
end Clausal
