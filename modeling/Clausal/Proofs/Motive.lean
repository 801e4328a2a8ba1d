import Clausal.Proofs.CaseSplit

/-!
# The motive of a case split

At the arguments, and with the hypotheses that were put in front, the motive is the
goal again.
-/

namespace Clausal

open Assignment Eval Fresh List Subst

variable {Γ : Telescope} {type : Term} {k l : Nat}

/-! ### Copies of telescopes -/

namespace Telescope

/-- New variables are distinct and come from the supply. -/
lemma freshenWith_vars (σ : Subst) (Γ : Telescope) (n : Nat) :
    (vars ((freshenWith σ Γ).value n)).Nodup ∧
      ∀ v ∈ vars ((freshenWith σ Γ).value n), n ≤ v.id ∧ v.id < (freshenWith σ Γ).next n := by
  induction Γ generalizing σ n with
  | nil => exact ⟨nodup_nil, forall_mem_nil _⟩
  | cons e Γ ih =>
    obtain ⟨v, type⟩ := e
    have htype := apply_next σ type (n + 1)
    have hinsert := insert_next σ v (.var ⟨n, v.name⟩) ((σ.apply type).next (n + 1))
    obtain ⟨hnodup, hrest⟩ := ih ((σ.insert v (.var ⟨n, v.name⟩)).value
      ((σ.apply type).next (n + 1))) ((σ.insert v (.var ⟨n, v.name⟩)).next
      ((σ.apply type).next (n + 1)))
    have hle := (freshenWith_spec ((σ.insert v (.var ⟨n, v.name⟩)).value
      ((σ.apply type).next (n + 1))) Γ ((σ.insert v (.var ⟨n, v.name⟩)).next
      ((σ.apply type).next (n + 1)))).1
    simp only [freshenWith, next_bind, value_bind, next_refresh,
      value_refresh, next_pure, value_pure]
    refine ⟨nodup_cons.2 ⟨fun hmem => ?_, hnodup⟩,
      forall_mem_cons.2 ⟨⟨le_refl n, ?_⟩, fun w hw => ⟨?_, (hrest w hw).2⟩⟩⟩
    · have hid : _ ≤ n := (hrest _ hmem).1
      omega
    · change n < _
      omega
    · have hid := (hrest w hw).1
      omega

/-- The types are over the new variables before them. -/
lemma freshenWith_within (hΓ : Γ.Within S) (hσ : σ.entries.Maps S R) (n : Nat) :
    Within R ((freshenWith σ Γ).value n) := by
  induction Γ generalizing σ S R n with
  | nil => trivial
  | cons e Γ ih =>
    obtain ⟨v, type⟩ := e
    simp only [freshenWith, value_bind, next_refresh, value_refresh,
      value_pure]
    refine ⟨apply_over hσ _ hΓ.1, ih (R := R.bind [⟨n, v.name⟩]) hΓ.2
      ⟨fun x hx => ?_, hσ.globals, hσ.splits⟩ _⟩
    change (Subst.image _ x).Over _
    have hnew : (Term.var ⟨n, v.name⟩).Over (R.bind [⟨n, v.name⟩]) :=
      .inl (mem_singleton.2 rfl)
    have hold (hne : v ≠ x) : (σ.entries.image x).Over R :=
      hσ.vars x (hx.resolve_left fun hmem => hne (mem_singleton.1 hmem).symm)
    rcases get?_insert σ v (.var ⟨n, v.name⟩) ((σ.apply type).next (n + 1)) x with
      ⟨-, hget⟩ | ⟨hne, hσx, hget⟩ | ⟨hne, a, b, hσx, hget, happlied⟩
    · rw [Subst.image, image_eq hget]
      exact hnew
    · have hover := hold hne
      rw [image_eq_var hσx] at hover
      rw [Subst.image, image_eq_var hget]
      exact .inr hover
    · have hover := hold hne
      rw [image_eq hσx] at hover
      rw [Subst.image, image_eq hget]
      exact happlied.over (single_maps v hnew) ((hover.mono (R.le_bind _)).mono (Reach.le_bind _ _))

lemma pis_ofType (type : Term) : (ofType type).1.pis (ofType type).2 = type := by
  fun_induction ofType type with
  | case1 v dom cod Γ body heq ih =>
    rw [heq] at ih
    exact congrArg (Term.pi v dom) ih
  | case2 => rfl

end Telescope

variable {n m : Nat} {base : RuleBase} {sig : Signature}

/-! ### The motive -/

mutual

lemma Term.BindsOnce.bindsNone : {t : Term} → t.BindsOnce P → t.BindsNone fun x => ¬ P x
  | .univ, _ | .var _, _ | .global _, _ => trivial
  | .pi _ _ _, ht | .lam _ _ _, ht => ⟨not_not_intro ht.1, ht.2.1.bindsNone,
      ht.2.2.bindsNone.mono fun _ hx h => hx h.2⟩
  | .app _ _, ht | .ann _ _, ht | .case _ _, ht => ⟨ht.1.bindsNone, ht.2.bindsNone⟩
  | .absurd scrut, ht => Term.BindsOnce.bindsNone (t := scrut) ht

lemma Branches.BindsOnce.bindsNone : {bs : Branches} → bs.BindsOnce P →
    bs.BindsNone fun x => ¬ P x
  | .nil, _ => trivial
  | .cons _ _ _ _, hb => ⟨fun v hv => not_not_intro (hb.1 v hv),
      hb.2.2.1.bindsNone.mono fun _ hx h => hx h.2, hb.2.2.2.bindsNone⟩

end

/-- Leading products bind different variables, and what follows binds none of them. -/
lemma Telescope.bindsOnce_pis (h : (Γ.pis t).BindsOnce P) :
    Γ.vars.Nodup ∧ (∀ v ∈ Γ.vars, P v) ∧ t.BindsOnce fun x => x ∉ Γ.vars ∧ P x := by
  induction Γ generalizing P with
  | nil =>
    exact ⟨nodup_nil, forall_mem_nil _, Term.BindsOnce.mono (fun x hx => ⟨not_mem_nil, hx⟩) h⟩
  | cons e Γ ih =>
    obtain ⟨hv, -, hrest⟩ := h
    obtain ⟨hnodup, hvars, ht⟩ := ih hrest
    refine ⟨nodup_cons.2 ⟨fun hmem => (hvars _ hmem).1 rfl, hnodup⟩,
      forall_mem_cons.2 ⟨hv, fun v hv => (hvars v hv).2⟩, ht.mono fun x hx => ⟨?_, hx.2.2⟩⟩
    exact not_mem_cons_of_ne_of_not_mem hx.2.1 hx.1

/-- The names of hypotheses, the last one first. -/
def Telescope.locals (Γ : Telescope) : Surface.Locals :=
  (Γ.map fun e => (e.1.name, .var e.1)).reverse

/-- The type that the principle of a function asks of a motive mentions none of the variables. -/
def RuleBase.MotiveApart (base : RuleBase) (sig : Signature) (function : Name) (vs : List Var) :
    Prop :=
  ∀ ⦃e : Eliminator⦄ ⦃motive : Var⦄ ⦃type rest : Term⦄, base.eliminator? function = some e →
    sig.type? e.name = some (.pi motive type rest) → type.Over { vars := (· ∉ vs) }

namespace Goal

variable {base : RuleBase} {sig : Signature} {goal : Goal} {target : Term} {function : Name}
  {args : List Term} {s : CaseSplit} {n m : Nat}

lemma ParamsFor.of_freshen (h : (Γ.freshen.value n).length = args.length) :
    ParamsFor n (Γ.freshen.next n) args (Γ.freshen.value n) where
  length := h
  distinct := (Telescope.freshenWith_vars .empty Γ n).1
  new := (Telescope.freshenWith_vars .empty Γ n).2

/-- Putting the arguments back and opening the function types in front, as it is run. -/
lemma generalise_runs (hgoal : goal.Posed n args) (hparams : ParamsFor n l args params)
    (hnl : n ≤ l) (hk : n ≤ k) (hbody : ((goal.generalise args params).value l).2.Over (.below k)) :
    ∃ type, value (do
        let type ← (Subst.ofPairs (params.vars.zip args)).apply
          ((goal.generalise args params).value l).2
        Term.openPis (goal.reverted args).args type) k = some type ∧
      type.alphaEq goal.type = true := by
  generalize hbody_eq : ((goal.generalise args params).value l).2 = body at hbody
  have hmaps : (Subst.ofPairs (params.vars.zip args)).entries.Maps (.below k) (.below k) := by
    refine ⟨fun x hx => ?_, fun _ hc => hc, id⟩
    change (Subst.image _ x).Over _
    rcases image_ofPairs hparams.vars_length x with ⟨hmem, -⟩ | ⟨himage, -⟩
    · exact (hgoal.args_behind _ hmem).mono (Reach.below_le hk)
    · rw [himage]
      exact hx
  let σ := Subst.ofPairs (params.vars.zip args)
  have hnext : k ≤ (σ.apply body).next k := σ.apply_next body k
  have hreverted : ∀ a ∈ (goal.reverted args).args, a.Over (.below ((σ.apply body).next k)) := by
    intro a ha
    obtain ⟨e, he, rfl⟩ := mem_map.1 ha
    exact lt_of_lt_of_le (hgoal.reverted_behind e he).1 (by omega)
  have hopen := Term.openPis_nameless hreverted
    ((apply_over hmaps k hbody).mono (Reach.below_le hnext))
  have hforms : (goal.reverted args).args.map (Term.nameless []) =
      (goal.reverted args).vars.map Nameless.free := by
    rw [Telescope.args, Telescope.vars, map_map, map_map]
    rfl
  have hopens := generalise_opens hgoal hparams hnl (le_refl l)
  rw [hbody_eq, Term.opened] at hopens
  rw [nameless_apply (fun x hx => hmaps.vars x hx) hbody, hforms, hopens] at hopen
  obtain ⟨type, htype, hform⟩ := Option.map_eq_some_iff.1 hopen
  refine ⟨type, ?_, (Term.alphaEq_iff type goal.type).2 hform⟩
  simpa only [value_bind] using htype

/-- A motive that gives a goal back: in its body `params` stand for the arguments, and the
hypotheses of `reverted` are in front of the goal. -/
structure GivenBack (goal : Goal) (args : List Term) (n : Nat) (s : CaseSplit) (params : Telescope)
    (body : Term) (reverted kept : Telescope) : Prop where
  motive : s.motive = Telescope.lams params body
  length : params.length = args.length
  distinct : params.vars.Nodup
  reverted_sublist : reverted.Sublist goal.context
  mem_reverted : ∀ e ∈ goal.context, e ∈ reverted ↔ goal.Depends args e.1 ∧ .var e.1 ∉ args
  /-- At the arguments, and with the hypotheses themselves for the function types in front,
  the body is the goal. -/
  opens : ∀ k ≥ n, body.Over (.below k) → ∃ type, value (do
      let type ← (Subst.ofPairs (params.vars.zip args)).apply body
      Term.openPis reverted.args type) k = some type ∧ type.alphaEq goal.type = true
  motive_occurs : ∀ v, goal.Depends args v → s.motive.occurs v = false
  kept_sublist : kept.Sublist goal.context
  mem_kept : ∀ e ∈ goal.context, e ∈ kept ↔ ¬ goal.Depends args e.1
  kept_occurs : ∀ e ∈ kept, ∀ v, goal.Depends args v → e.1 ≠ v ∧ e.2.occurs v = false
  context : ∀ g ∈ s.subgoals, ∃ new, g.goal.context = kept ++ new

lemma Posed.gives_back (hgoal : goal.Posed n args)
    (hbase : base.MotiveApart sig function goal.context.vars)
    (htarget : target.globalSpine? = some (function, args))
    (h : Eval.Yields (goal.caseSplit base sig target) n s m) :
    ∃ params body reverted kept, goal.GivenBack args n s params body reverted kept := by
  obtain ⟨e, motive, type, rest, he, htype, hlen, hmotive, -, hsubgoals⟩ :=
    caseSplit_parts htarget h
  have hparams := ParamsFor.of_freshen hlen
  have hnl : n ≤ (Telescope.ofType type).1.freshen.next n :=
    (Telescope.freshenWith_spec .empty (Telescope.ofType type).1 n).1
  obtain ⟨hdistinct, hordered⟩ := And.intro hgoal.distinct hgoal.ordered
  obtain ⟨hkept, hreverted⟩ := revert_sublist (args.filterMap goal.abstracted?)
    (args.filterMap goal.abstracted?) goal.context
  refine ⟨_, _, goal.reverted args, goal.kept args, hmotive, hlen, hparams.distinct, hreverted,
    fun e he => ?_, fun k hk hbody => generalise_runs hgoal hparams hnl hk hbody, fun v hv => ?_,
    hkept, fun e he => ?_, fun e he v hv => ⟨?_, kept_occurs hdistinct hordered he hv⟩, hsubgoals⟩
  · rw [mem_reverted_iff hdistinct hordered]
    exact ⟨And.right, fun h => ⟨he, h⟩⟩
  · -- The parameters are apart from the goal, so what is left to see is its generalisation.
    have htypes : (Telescope.ofType type).1.Within { vars := (· ∉ goal.context.vars) } := by
      have hover := hbase he htype
      rw [← Telescope.pis_ofType type] at hover
      exact (Telescope.over_pis.1 hover).1
    have hover : s.motive.Over { vars := fun x => ¬ goal.Depends args x } := by
      rw [hmotive]
      refine Telescope.over_lams.2 ⟨?_, (generalise_over hgoal hparams _).weaken fun x hx => hx⟩
      refine Telescope.freshenWith_within htypes
        ⟨fun x hx => ?_, fun _ _ => trivial, fun _ => trivial⟩ n
      exact fun hdepends : goal.Depends args x => hx hdepends.mem
    exact Bool.eq_false_iff.2 fun hoccurs => hover.occurs hoccurs hv
  · rw [mem_kept_iff hdistinct hordered]
    exact ⟨And.right, fun h => ⟨he, h⟩⟩
  · rintro rfl
    exact ((mem_kept_iff hdistinct hordered).1 he).2 hv

/-! ### Goals that are read -/

/-- A goal that is read, and a target that is read over its hypotheses, are posed; the
variables of the goal are new. -/
lemma posed_of_read {scope : Surface.Scope} {source read : Surface.Term} {i : Nat}
    (hsource : Yields (scope.term [] source) i type k) (hkl : k ≤ l)
    (hread : Yields (scope.term (ofType type).context.locals read) l target n)
    (htarget : target.globalSpine? = some (function, args)) :
    (ofType type).Posed n args ∧ ∀ v ∈ (ofType type).context.vars, i ≤ v.id := by
  obtain ⟨-, -, htype⟩ := (Surface.Scope.term_outcome source [] i).yields hsource
  obtain ⟨-, hln, hover⟩ :=
    (@Surface.Scope.term_outcome scope (ofType type).context.locals read [] l).yields hread
  have hclosed : type.Over .closed := Term.over_iff_occurs.2 fun x hx => by
    rcases htype.closes x hx with hmem | ⟨e, he, -⟩
    · cases hmem
    · cases he
  have hfree := htype.kept _ Surface.kept_splitFree (forall_mem_nil _)
  have honce := htype.once (forall_mem_nil _)
  rw [← Telescope.pis_ofType type] at hclosed hfree honce
  change (Telescope.pis (ofType type).context (ofType type).type).Over _ at hclosed
  change (Telescope.pis (ofType type).context (ofType type).type).SplitFree _ at hfree
  change (Telescope.pis (ofType type).context (ofType type).type).BindsOnce _ at honce
  generalize ofType type = goal at *
  obtain ⟨hwithin, -⟩ := Telescope.over_pis.1 hclosed
  obtain ⟨hcontext, hgoal⟩ := Telescope.splitFree_pis.1 (hfree.mono (hkl.trans hln))
  obtain ⟨hnodup, htaken, hgoalOnce⟩ := Telescope.bindsOnce_pis honce
  -- The target is read over the hypotheses of the goal only.
  have hscope : target.Over { vars := (· ∈ goal.context.vars) } := by
    refine Term.over_iff_occurs.2 fun x hx => ?_
    rcases hover.closes x hx with hmem | ⟨e, he, hoccurs⟩
    · cases hmem
    · obtain ⟨entry, hentry, rfl⟩ := mem_map.1 (mem_reverse.1 he)
      obtain rfl : entry.1 = x := by simpa [Term.occurs] using hoccurs
      exact Telescope.mem_vars hentry
  rw [Term.eq_of_globalSpine? htarget] at hscope
  obtain ⟨-, hargs⟩ := Term.over_apps.1 hscope
  refine ⟨⟨hnodup, ?_, ?_, fun e he => ⟨(hcontext e he).1, (hcontext e he).2.below⟩, hgoal.below,
    ?_, fun a ha => ?_⟩, fun v hv => (htaken v hv).1⟩
  · exact hwithin.mono ⟨fun _ hx => hx.elim, fun _ _ => trivial, fun _ => trivial⟩
  · refine hgoalOnce.bindsNone.mono fun x hx hbound => ?_
    obtain ⟨a, ha, -, hoccurs⟩ := hx
    exact hbound.1 ((hargs a ha).occurs hoccurs)
  · refine hgoalOnce.bindsNone.mono fun x hx hbound => ?_
    have := hbound.2.2
    omega
  · refine (hargs a ha).weaken fun x hx => ?_
    have := (htaken x hx).2
    change x.id < n
    omega

end Goal

namespace Motive

def apply (head : Name) (args : List Surface.Term) : Surface.Term :=
  args.foldl (.app default) (.name default head)

/-- The distance of a position below a successor. -/
def call : Surface.Term := apply "distance" [apply "succ" [.name default "n"], .name default "i"]

/-- A goal about the distance, with a hypothesis about it. -/
def source : Surface.Term :=
  .pi default [.mk [⟨default, "n"⟩] (.name default "N"),
      .mk [⟨default, "i"⟩] (apply "P" [apply "succ" [.name default "n"]]),
      .mk [⟨default, "h"⟩] (apply "Eq" [.name default "N", call, .name default "zero"])]
    (apply "Eq" [.name default "N", call, .name default "n"])

/-- The arguments of the call, with variables from a supply: one of them is no variable. -/
def args (m : Nat) : List Term := [.app (.global "succ") (.var ⟨m, "n"⟩), .var ⟨m + 1, "i"⟩]

def target (m : Nat) : Term := (Term.global "distance").apps (args m)

def goal (m : Nat) : Goal where
  context := [(⟨m, "n"⟩, .global "N"),
    (⟨m + 1, "i"⟩, .app (.global "P") (.app (.global "succ") (.var ⟨m, "n"⟩))),
    (⟨m + 2, "h"⟩, .eq (.global "N") (target m) (.global "zero"))]
  type := .eq (.global "N") (target m) (.var ⟨m, "n"⟩)

/-- Whether a term is read as another one. -/
def reads (sig : Signature) (locals : Surface.Locals) (t : Surface.Term) (n : Nat) (u : Term)
    (m : Nat) : Bool :=
  (value (({ sig } : Surface.Scope).term locals t).run n).toOption == some u &&
    next (({ sig } : Surface.Scope).term locals t).run n == m

lemma yields_of_reads (h : reads sig locals t n u m = true) :
    Yields (({ sig } : Surface.Scope).term locals t) n u m := by
  simp only [reads, Bool.and_eq_true, beq_iff_eq] at h
  exact ⟨eq_ok_of_toOption h.1, h.2⟩

lemma depends_ne (m : Nat) (h : (goal m).Depends (args m) v) : v ≠ ⟨m, "n"⟩ := by
  rintro rfl
  generalize hv : (⟨m, "n"⟩ : Var) = v at h
  cases h with
  | arg _ ha => simp [args, ← hv] at ha
  | @through e d he hoccurs _ =>
    simp only [goal, mem_cons, not_mem_nil, or_false] at he
    rcases he with rfl | rfl | rfl
    · simp [Term.occurs] at hoccurs
    · simp at hv
    · simp at hv

end Motive

end Clausal
